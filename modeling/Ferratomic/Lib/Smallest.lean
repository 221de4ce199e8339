import Ferratomic.Lib.SortedList

/-!
# The smallest items

A bounded heap keeps the smallest items of a stream, and a truncated merge the smallest items of two
ascending lists. The main theorems are `sort_foldl_offer`, which says that the heap ends with the
first items of the sorted stream, `take_mergeSortDedup`, by which truncating before a merge does not
change its truncation, and that a merge of ascending lists is commutative, associative and
idempotent (`mergeSortDedup_comm`, `mergeSortDedup_assoc`, `mergeSortDedup_self`).
-/

namespace Ferratomic.Lib

variable {α : Type} [LinearOrder α]

section Heap

/-- Offer an item to a max-heap of bounded size: it replaces the greatest one if it is smaller. -/
def offer (capacity : Nat) (heap : List α) (item : α) : List α :=
  if heap.length < capacity then item :: heap
  else
    match heap.max? with
    | some greatest => if item < greatest then item :: heap.erase greatest else heap
    | none => heap

/-- An offer keeps the heap within its capacity. -/
theorem length_offer {capacity : Nat} {heap : List α} (h : heap.length ≤ capacity) (item : α) :
    (offer capacity heap item).length ≤ capacity := by
  unfold offer
  split
  case isTrue hroom => exact hroom
  case isFalse =>
    split
    case h_1 greatest hmax =>
      split
      case isTrue =>
        have hmem := (List.max?_eq_some_iff.mp hmax).1
        rw [List.length_cons, List.length_erase_of_mem hmem,
          Nat.sub_add_cancel (List.length_pos_of_mem hmem)]
        exact h
      case isFalse => exact h
    case h_2 => exact h

/-- A heap holds the smallest items and is full unless it holds all. -/
structure Keeps (capacity : Nat) (items heap rest : List α) : Prop where
  perm : items.Perm (heap ++ rest)
  below : ∀ x ∈ heap, ∀ y ∈ rest, x ≤ y
  full : heap.length = capacity ∨ heap.length ≤ capacity ∧ rest = []

/-- An offer keeps the smallest items. -/
theorem Keeps.offer {capacity : Nat} {items heap rest : List α} (h : Keeps capacity items heap rest)
    (item : α) : ∃ rest', Keeps capacity (items ++ [item]) (offer capacity heap item) rest' := by
  have hperm : (items ++ [item]).Perm (item :: (heap ++ rest)) :=
    (List.perm_append_singleton item items).trans (h.perm.cons item)
  unfold Lib.offer
  split
  case isTrue hroom =>
    -- nothing was left out while there was room
    obtain ⟨-, rfl⟩ := h.full.resolve_left (Nat.ne_of_lt hroom)
    exact ⟨[], hperm, fun _ _ y hy => absurd hy List.not_mem_nil, .inr ⟨hroom, rfl⟩⟩
  case isFalse hfull =>
    have hlength : heap.length = capacity := by
      rcases h.full with hlength | ⟨hle, -⟩
      · exact hlength
      · omega
    have hskip (hbelow : ∀ x ∈ heap, x ≤ item) :
        Keeps capacity (items ++ [item]) heap (item :: rest) := by
      refine ⟨hperm.trans List.perm_middle.symm, fun x hx y hy => ?_, .inl hlength⟩
      rcases List.mem_cons.mp hy with rfl | hy
      · exact hbelow x hx
      · exact h.below x hx y hy
    split
    case h_1 greatest hmax =>
      obtain ⟨hmem, hgreatest⟩ := List.max?_eq_some_iff.mp hmax
      split
      case isTrue hlt =>
        -- the greatest of the kept items makes room and is left out
        refine ⟨greatest :: rest, hperm.trans ?_, fun x hx y hy => ?_, .inl ?_⟩
        · rw [List.cons_append]
          refine List.Perm.cons item ?_
          exact ((List.perm_cons_erase hmem).append_right rest).trans List.perm_middle.symm
        · have hx' : x ≤ greatest := by
            rcases List.mem_cons.mp hx with rfl | hx
            · exact hlt.le
            · exact hgreatest x (List.mem_of_mem_erase hx)
          rcases List.mem_cons.mp hy with rfl | hy
          · exact hx'
          · exact hx'.trans (h.below greatest hmem y hy)
        · rw [List.length_cons, List.length_erase_of_mem hmem, ← hlength,
            Nat.sub_add_cancel (List.length_pos_of_mem hmem)]
      case isFalse hge =>
        exact ⟨item :: rest, hskip fun x hx => (hgreatest x hx).trans (le_of_not_gt hge)⟩
    case h_2 hnone =>
      rw [List.max?_eq_none_iff.mp hnone] at hskip ⊢
      exact ⟨item :: rest, hskip fun x hx => absurd hx List.not_mem_nil⟩

/-- The smallest items are the first ones of the sorted list. -/
theorem Keeps.sort_eq {capacity : Nat} {items heap rest : List α}
    (h : Keeps capacity items heap rest) :
    heap.insertionSort (· ≤ ·) = (items.insertionSort (· ≤ ·)).take capacity := by
  have hsplit : items.insertionSort (· ≤ ·) =
      heap.insertionSort (· ≤ ·) ++ rest.insertionSort (· ≤ ·) := by
    refine List.Perm.eq_of_pairwise (fun _ _ _ _ => le_antisymm)
      (List.pairwise_insertionSort _ items) ?_ ?_
    · refine List.pairwise_append.mpr ⟨List.pairwise_insertionSort _ heap,
        List.pairwise_insertionSort _ rest, fun x hx y hy => ?_⟩
      exact h.below x ((List.perm_insertionSort _ heap).mem_iff.mp hx) y
        ((List.perm_insertionSort _ rest).mem_iff.mp hy)
    · exact (List.perm_insertionSort _ items).trans (h.perm.trans
        ((List.perm_insertionSort _ heap).append (List.perm_insertionSort _ rest)).symm)
  rw [hsplit]
  rcases h.full with hlength | ⟨hle, rfl⟩
  · rw [List.take_left' ((List.length_insertionSort _ heap).trans hlength)]
  · rw [List.insertionSort_nil, List.append_nil,
      List.take_of_length_le ((List.length_insertionSort _ heap).trans_le hle)]

/-- A bounded heap ends with the first items of the sorted stream. -/
theorem sort_foldl_offer (capacity : Nat) (items : List α) :
    (items.foldl (offer capacity) []).insertionSort (· ≤ ·) =
      (items.insertionSort (· ≤ ·)).take capacity := by
  have hkeeps : ∃ rest, Keeps capacity items (items.foldl (offer capacity) []) rest := by
    induction items using List.reverseRecOn with
    | nil => exact ⟨[], .refl _, nofun, .inr ⟨Nat.zero_le _, rfl⟩⟩
    | append_singleton items item ih =>
        obtain ⟨rest, hrest⟩ := ih
        rw [List.foldl_append]
        exact hrest.offer item
  obtain ⟨rest, hrest⟩ := hkeeps
  exact hrest.sort_eq

end Heap

section Merge

/-- Nothing merged on the left changes nothing. -/
@[simp]
theorem mergeSortDedup_nil_left (right : List α) : mergeSortDedup [] right = right := by
  rw [mergeSortDedup]

/-- Nothing merged on the right changes nothing. -/
@[simp]
theorem mergeSortDedup_nil_right (left : List α) : mergeSortDedup left [] = left := by
  cases left with
  | nil => rw [mergeSortDedup]
  | cons x left =>
      rw [mergeSortDedup]
      exact List.cons_ne_nil x left

/-- The smaller head on the left comes first. -/
theorem mergeSortDedup_cons_lt {x y : α} (h : x < y) (left right : List α) :
    mergeSortDedup (x :: left) (y :: right) = x :: mergeSortDedup left (y :: right) := by
  rw [mergeSortDedup, compare_lt_iff_lt.mpr h]

/-- The smaller head on the right comes first. -/
theorem mergeSortDedup_cons_gt {x y : α} (h : y < x) (left right : List α) :
    mergeSortDedup (x :: left) (y :: right) = y :: mergeSortDedup (x :: left) right := by
  rw [mergeSortDedup, compare_gt_iff_gt.mpr h]

/-- Equal heads are merged into one. -/
theorem mergeSortDedup_cons_self (x : α) (left right : List α) :
    mergeSortDedup (x :: left) (x :: right) = x :: mergeSortDedup left right := by
  rw [mergeSortDedup, compare_eq_iff_eq.mpr (rfl : x = x)]

/-- Truncating two lists does not change the truncation of their merge. -/
theorem take_mergeSortDedup (count : Nat) (left right : List α) :
    (mergeSortDedup left right).take count =
      (mergeSortDedup (left.take count) (right.take count)).take count := by
  induction count generalizing left right with
  | zero => rfl
  | succ count ih =>
      have hshort (z : α) (items : List α) :
          (z :: items.take count).take count = (z :: items).take count := by
        rw [← List.take_succ_cons, List.take_take, Nat.min_eq_left (Nat.le_succ count)]
      cases left with
      | nil => rw [List.take_nil, mergeSortDedup_nil_left, mergeSortDedup_nil_left, List.take_take,
          Nat.min_self]
      | cons x left =>
        cases right with
        | nil => rw [List.take_nil, mergeSortDedup_nil_right, mergeSortDedup_nil_right,
            List.take_take, Nat.min_self]
        | cons y right =>
          simp only [List.take_succ_cons]
          rcases lt_trichotomy x y with hlt | rfl | hgt
          · rw [mergeSortDedup_cons_lt hlt, mergeSortDedup_cons_lt hlt, List.take_succ_cons,
              List.take_succ_cons, ih left (y :: right),
              ih (left.take count) (y :: right.take count), hshort, List.take_take, Nat.min_self]
          · rw [mergeSortDedup_cons_self, mergeSortDedup_cons_self, List.take_succ_cons,
              List.take_succ_cons, ih]
          · rw [mergeSortDedup_cons_gt hgt, mergeSortDedup_cons_gt hgt, List.take_succ_cons,
              List.take_succ_cons, ih (x :: left) right,
              ih (x :: left.take count) (right.take count), hshort, List.take_take, Nat.min_self]

/-- Truncating one list does not change the truncation of a merge either. -/
theorem take_mergeSortDedup_left (count : Nat) (left right : List α) :
    (mergeSortDedup (left.take count) right).take count =
      (mergeSortDedup left right).take count := by
  rw [take_mergeSortDedup count left, take_mergeSortDedup count (left.take count), List.take_take,
    Nat.min_self]

/-- The merge commutes. -/
theorem mergeSortDedup_comm (left right : List α) :
    mergeSortDedup left right = mergeSortDedup right left := by
  fun_induction mergeSortDedup left right with
  | case1 right => rw [mergeSortDedup_nil_right]
  | case2 left hne => rw [mergeSortDedup_nil_left]
  | case3 x left y right h ih => rw [mergeSortDedup_cons_gt (compare_lt_iff_lt.mp h), ih]
  | case4 x left y right h ih => rw [mergeSortDedup_cons_lt (compare_gt_iff_gt.mp h), ih]
  | case5 x left y right h ih =>
      obtain rfl := compare_eq_iff_eq.mp h
      rw [mergeSortDedup_cons_self, ih]

/-- A list merged with itself is itself. -/
theorem mergeSortDedup_self (items : List α) : mergeSortDedup items items = items := by
  induction items with
  | nil => exact mergeSortDedup_nil_left []
  | cons x items ih => rw [mergeSortDedup_cons_self, ih]

/-- The merge of two ascending lists ascends. -/
theorem pairwise_le_mergeSortDedup {left right : List α} (hl : left.Pairwise (· ≤ ·))
    (hr : right.Pairwise (· ≤ ·)) : (mergeSortDedup left right).Pairwise (· ≤ ·) := by
  have hfirst {b x : α} {items : List α} (hbx : b ≤ x) (h : (x :: items).Pairwise (· ≤ ·)) :
      ∀ a ∈ x :: items, b ≤ a := by
    intro a ha
    rcases List.mem_cons.mp ha with rfl | ha
    · exact hbx
    · exact hbx.trans ((List.pairwise_cons.mp h).1 a ha)
  fun_induction mergeSortDedup left right with
  | case1 right => exact hr
  | case2 left hne => exact hl
  | case3 x left y right h ih =>
      refine List.pairwise_cons.mpr ⟨fun a ha => ?_, ih hl.of_cons hr⟩
      rcases mem_mergeSortDedup.mp ha with ha | ha
      · exact (List.pairwise_cons.mp hl).1 a ha
      · exact hfirst (compare_lt_iff_lt.mp h).le hr a ha
  | case4 x left y right h ih =>
      refine List.pairwise_cons.mpr ⟨fun a ha => ?_, ih hl hr.of_cons⟩
      rcases mem_mergeSortDedup.mp ha with ha | ha
      · exact hfirst (compare_gt_iff_gt.mp h).le hl a ha
      · exact (List.pairwise_cons.mp hr).1 a ha
  | case5 x left y right h ih =>
      obtain rfl := compare_eq_iff_eq.mp h
      refine List.pairwise_cons.mpr ⟨fun a ha => ?_, ih hl.of_cons hr.of_cons⟩
      rcases mem_mergeSortDedup.mp ha with ha | ha
      · exact (List.pairwise_cons.mp hl).1 a ha
      · exact (List.pairwise_cons.mp hr).1 a ha

/-- What lies below the first item of an ascending list is not in it. -/
theorem count_eq_zero_of_lt {x y : α} {items : List α} (hlt : x < y)
    (h : (y :: items).Pairwise (· ≤ ·)) : (y :: items).count x = 0 := by
  refine List.count_eq_zero_of_not_mem fun hmem => ?_
  rcases List.mem_cons.mp hmem with rfl | hmem
  · exact lt_irrefl x hlt
  · exact absurd hlt (((List.pairwise_cons.mp h).1 x hmem).not_gt)

/-- The merge of two ascending lists has every item as often as one of them has it. -/
theorem count_mergeSortDedup {left right : List α} (hl : left.Pairwise (· ≤ ·))
    (hr : right.Pairwise (· ≤ ·)) (a : α) :
    (mergeSortDedup left right).count a = max (left.count a) (right.count a) := by
  fun_induction mergeSortDedup left right with
  | case1 right => rw [List.count_nil, Nat.zero_max]
  | case2 left hne => rw [List.count_nil, Nat.max_zero]
  | case3 x left y right h ih =>
      rw [List.count_cons, List.count_cons, ih hl.of_cons hr]
      by_cases heq : x = a
      · subst heq
        rw [count_eq_zero_of_lt (compare_lt_iff_lt.mp h) hr, Nat.max_zero, Nat.max_zero]
      · rw [if_neg (by simpa using heq), Nat.add_zero, Nat.add_zero]
  | case4 x left y right h ih =>
      rw [List.count_cons, List.count_cons (l := right), ih hl hr.of_cons]
      by_cases heq : y = a
      · subst heq
        rw [count_eq_zero_of_lt (compare_gt_iff_gt.mp h) hl, Nat.zero_max, Nat.zero_max]
      · rw [if_neg (by simpa using heq), Nat.add_zero, Nat.add_zero]
  | case5 x left y right h ih =>
      obtain rfl := compare_eq_iff_eq.mp h
      rw [List.count_cons, List.count_cons, List.count_cons, ih hl.of_cons hr.of_cons,
        Nat.add_max_add_right]

/-- The merge of ascending lists is associative. -/
theorem mergeSortDedup_assoc {x y z : List α} (hx : x.Pairwise (· ≤ ·)) (hy : y.Pairwise (· ≤ ·))
    (hz : z.Pairwise (· ≤ ·)) :
    mergeSortDedup (mergeSortDedup x y) z = mergeSortDedup x (mergeSortDedup y z) := by
  have hxy := pairwise_le_mergeSortDedup hx hy
  have hyz := pairwise_le_mergeSortDedup hy hz
  refine List.Perm.eq_of_pairwise (fun _ _ _ _ => le_antisymm)
    (pairwise_le_mergeSortDedup hxy hz) (pairwise_le_mergeSortDedup hx hyz) ?_
  rw [List.perm_iff_count]
  intro a
  rw [count_mergeSortDedup hxy hz, count_mergeSortDedup hx hy, count_mergeSortDedup hx hyz,
    count_mergeSortDedup hy hz, Nat.max_assoc]

/-- The truncated merge of ascending lists is associative. -/
theorem take_mergeSortDedup_assoc (count : Nat) {x y z : List α} (hx : x.Pairwise (· ≤ ·))
    (hy : y.Pairwise (· ≤ ·)) (hz : z.Pairwise (· ≤ ·)) :
    (mergeSortDedup ((mergeSortDedup x y).take count) z).take count =
      (mergeSortDedup x ((mergeSortDedup y z).take count)).take count := by
  rw [take_mergeSortDedup_left, mergeSortDedup_comm x (List.take _ _), take_mergeSortDedup_left,
    mergeSortDedup_comm _ x, mergeSortDedup_assoc hx hy hz]

end Merge

end Ferratomic.Lib
