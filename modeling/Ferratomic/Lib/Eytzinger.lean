import Ferratomic.Lib.BinarySearch
import Ferratomic.Lib.Forall2
import Ferratomic.Lib.Machine

/-!
# Search trees in an array

An array can hold a binary tree without pointers: the root is at index one and the children of a
node are at twice its index and one further. `inorder` lists the nodes below a node from the left to
the right. The main theorems are `perm_inorder`, which says that every index of the array is a node
of the tree once, and `treeSearch_spec`: from the root to a leaf, a tree whose items ascend is
searched like a sorted list, also where its last level is not full.
-/

namespace Ferratomic.Lib

/-- The nodes below a node and the node itself, from the left to the right. Indices from the bound
on are not in the array, and no node has index zero. -/
def inorder (bound node : Nat) : List Nat :=
  if bound ≤ node ∨ node = 0 then []
  else inorder bound (2 * node) ++ node :: inorder bound (2 * node + 1)
termination_by bound - node

/-- A node inside the bound stands between its two subtrees. -/
theorem inorder_of_lt {bound node : Nat} (hpos : 0 < node) (hlt : node < bound) :
    inorder bound node = inorder bound (2 * node) ++ node :: inorder bound (2 * node + 1) := by
  rw [inorder, if_neg (by omega)]

/-- The nodes below a node are those that halving leads to it. -/
theorem mem_inorder {bound node m : Nat} (hpos : 0 < node) :
    m ∈ inorder bound node ↔ m < bound ∧ ∃ k, m / 2 ^ k = node := by
  fun_induction inorder bound node with
  | case1 node hstop =>
      refine iff_of_false List.not_mem_nil ?_
      rintro ⟨hlt, k, rfl⟩
      have hdiv : m / 2 ^ k ≤ m := Nat.div_le_self m _
      omega
  | case2 node hgo ihleft ihright =>
      rw [List.mem_append, List.mem_cons, ihleft (by omega), ihright (by omega)]
      have hhalf (k : Nat) : m / 2 ^ (k + 1) = m / 2 ^ k / 2 := by
        rw [Nat.pow_succ, Nat.div_div_eq_div_mul]
      constructor
      · rintro (⟨hlt, k, hk⟩ | rfl | ⟨hlt, k, hk⟩)
        · exact ⟨hlt, k + 1, by rw [hhalf, hk]; omega⟩
        · exact ⟨by omega, 0, by rw [Nat.pow_zero, Nat.div_one]⟩
        · exact ⟨hlt, k + 1, by rw [hhalf, hk]; omega⟩
      · rintro ⟨hlt, k, hk⟩
        cases k with
        | zero =>
            rw [Nat.pow_zero, Nat.div_one] at hk
            exact .inr (.inl hk)
        | succ k =>
            rw [hhalf] at hk
            have hchild : m / 2 ^ k = 2 * node ∨ m / 2 ^ k = 2 * node + 1 := by omega
            rcases hchild with hleft | hright
            · exact .inl ⟨hlt, k, hleft⟩
            · exact .inr (.inr ⟨hlt, k, hright⟩)

/-- Halving further leads to smaller numbers. -/
theorem div_two_pow_le {m a b j k : Nat} (hjk : j ≤ k) (ha : m / 2 ^ j = a) (hb : m / 2 ^ k = b) :
    b * 2 ^ (k - j) ≤ a := by
  have hpow : 2 ^ k = 2 ^ j * 2 ^ (k - j) := by rw [← Nat.pow_add, Nat.add_sub_cancel' hjk]
  rw [← hb, hpow, ← Nat.div_div_eq_div_mul, ha]
  exact Nat.div_mul_le_self a _

/-- No node is below two different nodes neither of which is below the other's half. -/
theorem not_below_both {m a b : Nat} (ha : ∃ k, m / 2 ^ k = a) (hb : ∃ k, m / 2 ^ k = b)
    (hlt : a < b) (hhalf : b < 2 * a) : False := by
  obtain ⟨j, hj⟩ := ha
  obtain ⟨k, hk⟩ := hb
  rcases lt_trichotomy j k with hjk | rfl | hkj
  · have hle := div_two_pow_le hjk.le hj hk
    have hone : b * 1 ≤ b * 2 ^ (k - j) := Nat.mul_le_mul_left b Nat.one_le_two_pow
    omega
  · omega
  · have hle := div_two_pow_le hkj.le hk hj
    have htwo : a * 2 ≤ a * 2 ^ (j - k) :=
      Nat.mul_le_mul_left a (Nat.le_self_pow (by omega) 2)
    omega

/-- No node is visited twice. -/
theorem nodup_inorder (bound node : Nat) : (inorder bound node).Nodup := by
  fun_induction inorder bound node with
  | case1 => exact List.nodup_nil
  | case2 node hgo ihleft ihright =>
      have hbelow : ∀ {m child : Nat}, 0 < child → m ∈ inorder bound child →
          ∃ k, m / 2 ^ k = child := fun hchild hm => ((mem_inorder hchild).mp hm).2
      refine List.nodup_append.mpr ⟨ihleft, List.nodup_cons.mpr
        ⟨fun hmem => ?_, ihright⟩, fun m hleft m' hright => ?_⟩
      · obtain ⟨k, hk⟩ := hbelow (by omega) hmem
        have := Nat.div_le_self node (2 ^ k)
        omega
      · rintro rfl
        rcases List.mem_cons.mp hright with rfl | hright
        · obtain ⟨k, hk⟩ := hbelow (by omega) hleft
          have := Nat.div_le_self m (2 ^ k)
          omega
        · exact not_below_both (hbelow (by omega) hleft) (hbelow (by omega) hright)
            (by omega) (by omega)

/-- Every index but zero is a node below the root, once. -/
theorem perm_inorder (count : Nat) : (inorder (count + 1) 1).Perm (List.range' 1 count) := by
  refine (List.perm_ext_iff_of_nodup (nodup_inorder _ _) List.nodup_range').mpr fun m => ?_
  rw [mem_inorder Nat.one_pos, List.mem_range'_1]
  constructor
  · rintro ⟨hlt, k, hk⟩
    have hpos : 0 < m := by
      by_contra hzero
      rw [Nat.eq_zero_of_not_pos hzero, Nat.zero_div] at hk
      cases hk
    omega
  · rintro ⟨hpos, hlt⟩
    refine ⟨by omega, Nat.log2 m, ?_⟩
    have hlog := Nat.log2_self_le (n := m) (by omega)
    have hlog' := Nat.lt_log2_self (n := m)
    rw [Nat.pow_succ] at hlog'
    exact Nat.div_eq_of_lt_le (by omega) (by omega)

section Search

variable {α : Type} (read : Nat → Except Fault α) (probe : α → Ordering)

/-- Follow a path from a node to a leaf, to the left of what lies above the target. -/
def treeSearch (bound node : Nat) : Except Fault (Option α) :=
  if bound ≤ node ∨ node = 0 then .ok none
  else
    match read node with
    | .error fault => .error fault
    | .ok item =>
        match probe item with
        | .eq => .ok (some item)
        | .lt => treeSearch bound (2 * node + 1)
        | .gt => treeSearch bound (2 * node)
termination_by bound - node

variable {read probe}

/-- Only items that were read at nodes of the tree are found. -/
theorem read_of_treeSearch {bound node : Nat} {item : α}
    (h : treeSearch read probe bound node = .ok (some item)) :
    ∃ m ∈ inorder bound node, read m = .ok item := by
  fun_induction treeSearch read probe bound node with
  | case1 node hstop => cases h
  | case2 node hgo fault hread => cases h
  | case3 node hgo item' hread hprobe =>
      cases h
      rw [inorder, if_neg hgo]
      exact ⟨node, List.mem_append_right _ List.mem_cons_self, hread⟩
  | case4 node hgo item' hread hprobe ih =>
      obtain ⟨m, hm, hitem⟩ := ih h
      have hsplit : inorder bound node = _ := inorder_of_lt (by omega) (by omega)
      rw [hsplit]
      exact ⟨m, List.mem_append_right _ (List.mem_cons_of_mem _ hm), hitem⟩
  | case5 node hgo item' hread hprobe ih =>
      obtain ⟨m, hm, hitem⟩ := ih h
      have hsplit : inorder bound node = _ := inorder_of_lt (by omega) (by omega)
      rw [hsplit]
      exact ⟨m, List.mem_append_left _ hm, hitem⟩

/-- A tree whose items ascend is searched like a sorted list. -/
theorem treeSearch_spec {bound node : Nat} {items : List α}
    (hread : List.Forall₂ (fun item m => read m = .ok item) items (inorder bound node))
    (h : Ascends probe items) :
    ∃ result, treeSearch read probe bound node = .ok result ∧
      ∀ item, result = some item ↔ item ∈ items ∧ probe item = .eq := by
  induction hdepth : bound - node using Nat.strong_induction_on generalizing node items with
  | h depth ih =>
  by_cases hstop : bound ≤ node ∨ node = 0
  · rw [inorder, if_pos hstop] at hread
    cases hread
    refine ⟨none, by rw [treeSearch, if_pos hstop], fun item => ?_⟩
    exact iff_of_false nofun fun h => List.not_mem_nil h.1
  · rw [inorder, if_neg hstop] at hread
    obtain ⟨left, right, found, rfl, hleft, hnode, hright⟩ := forall₂_split hread
    obtain ⟨hbefore, hafter, hacross⟩ := List.pairwise_append.mp h
    obtain ⟨hlater, hafter⟩ := List.pairwise_cons.mp hafter
    rw [treeSearch, if_neg hstop]
    simp only [hnode]
    cases hprobe : probe found with
    | eq =>
        refine ⟨some found, rfl, fun item => ⟨?_, fun ⟨hmem, heq⟩ => ?_⟩⟩
        · rintro ⟨⟩
          exact ⟨List.mem_append_right _ List.mem_cons_self, hprobe⟩
        · rcases List.mem_append.mp hmem with hmem | hmem
          · have hlt := hacross item hmem found List.mem_cons_self (by rw [hprobe]; decide)
            rw [heq] at hlt
            cases hlt
          · rcases List.mem_cons.mp hmem with rfl | hmem
            · rfl
            · have hlt := hlater item hmem (by rw [heq]; decide)
              rw [hprobe] at hlt
              cases hlt
    | lt =>
        -- what is accepted lies to the right of the node
        obtain ⟨result, hresult, hspec⟩ := ih _ (by omega) hright hafter rfl
        refine ⟨result, hresult, fun item => (hspec item).trans (and_congr_left fun heq => ?_)⟩
        rw [List.mem_append, List.mem_cons]
        refine ⟨fun hmem => .inr (.inr hmem), ?_⟩
        rintro (hmem | rfl | hmem)
        · have hlt := hacross item hmem found List.mem_cons_self (by rw [hprobe]; decide)
          rw [heq] at hlt
          cases hlt
        · rw [hprobe] at heq
          cases heq
        · exact hmem
    | gt =>
        obtain ⟨result, hresult, hspec⟩ := ih _ (by omega) hleft hbefore rfl
        refine ⟨result, hresult, fun item => (hspec item).trans (and_congr_left fun heq => ?_)⟩
        rw [List.mem_append, List.mem_cons]
        refine ⟨fun hmem => .inl hmem, ?_⟩
        rintro (hmem | rfl | hmem)
        · exact hmem
        · rw [hprobe] at heq
          cases heq
        · have hlt := hlater item hmem (by rw [heq]; decide)
          rw [hprobe] at hlt
          cases hlt

end Search

end Ferratomic.Lib
