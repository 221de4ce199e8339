import Mathlib

/-!
# Binary search

`binarySearchBy` is the search of a sorted slice by a probe that says on which side of the target
an element lies. The main theorem is `binarySearchBy_eq_ok`: on a list that ascends strictly with
respect to the probe the search finds exactly the element that the probe accepts.
-/

namespace Ferratomic.Lib

variable {α : Type}

/-- The loop of the search: halve the window until one element is left. -/
def searchBase (items : List α) (probe : α → Ordering) (base size : Nat) : Nat :=
  if size ≤ 1 then base
  else
    let mid := base + size / 2
    let base := match items[mid]? with
      | some item => if probe item = .gt then base else mid
      | none => base
    searchBase items probe base (size - size / 2)
termination_by size

/-- `binary_search_by`: the index of an accepted element, or where it would be inserted. -/
def binarySearchBy (items : List α) (probe : α → Ordering) : Except Nat Nat :=
  let base := searchBase items probe 0 items.length
  match items[base]?.map probe with
  | none => .error 0
  | some .eq => .ok base
  | some .lt => .error (base + 1)
  | some .gt => .error base

/-- The list ascends strictly past the target: in front of an element that does not lie above it
everything lies below it. -/
def Ascends (probe : α → Ordering) (items : List α) : Prop :=
  items.Pairwise fun x y => probe y ≠ .gt → probe x = .lt

/-- A strictly ascending list ascends past every key. -/
theorem ascends_compare {β : Type} [LinearOrder β] {read : α → β} {items : List α}
    (h : items.Pairwise fun x y => read x < read y) (key : β) :
    Ascends (fun item => compare (read item) key) items := by
  refine h.imp fun {x y} hlt hle => ?_
  exact compare_lt_iff_lt.mpr (lt_of_lt_of_le hlt (compare_le_iff_le.mp hle))

/-- An item before one that is not above the target is below the target. -/
theorem Ascends.getElem? {probe : α → Ordering} {items : List α} (h : Ascends probe items)
    {i j : Nat} {x y : α} (hlt : i < j) (hi : items[i]? = some x) (hj : items[j]? = some y)
    (hle : probe y ≠ .gt) : probe x = .lt := by
  obtain ⟨hbound, rfl⟩ := List.getElem?_eq_some_iff.mp hi
  obtain ⟨hbound', rfl⟩ := List.getElem?_eq_some_iff.mp hj
  exact List.pairwise_iff_getElem.mp h i j hbound hbound' hlt hle

/-- The window keeps the target until nothing else is left in it. -/
theorem searchBase_eq {probe : α → Ordering} {items : List α} (h : Ascends probe items)
    {target : Nat} {item : α} (htarget : items[target]? = some item) (hprobe : probe item = .eq)
    {base size : Nat} (hlow : base ≤ target) (hhigh : target < base + size)
    (hbound : base + size ≤ items.length) : searchBase items probe base size = target := by
  fun_induction searchBase items probe base size with
  | case1 base size hsize => omega
  | case2 base size hsize mid next ih =>
      have hmid : mid < items.length := by omega
      have hget : items[mid]? = some items[mid] := List.getElem?_eq_getElem hmid
      have hnext : next = if probe items[mid] = .gt then base else mid := by
        simp only [next, hget, dite_eq_ite]
      -- the half that is kept holds the target, since the probe ascends
      by_cases hgt : probe items[mid] = .gt
      · rw [if_pos hgt] at hnext
        have hbelow : target < mid := by
          by_contra hge
          rcases Nat.lt_or_eq_of_le (Nat.le_of_not_lt hge) with hlt | heq
          · have hlt' := h.getElem? hlt hget htarget (by rw [hprobe]; decide)
            rw [hgt] at hlt'
            cases hlt'
          · rw [← heq, hget] at htarget
            cases htarget
            rw [hgt] at hprobe
            cases hprobe
        exact ih (by omega) (by omega) (by omega)
      · rw [if_neg hgt] at hnext
        have habove : mid ≤ target := by
          by_contra hlt
          have hlt' := h.getElem? (Nat.lt_of_not_le hlt) htarget hget hgt
          rw [hprobe] at hlt'
          cases hlt'
        exact ih (by omega) (by omega) (by omega)

/-- The search finds exactly the element that the probe accepts. -/
theorem binarySearchBy_eq_ok {probe : α → Ordering} {items : List α} (h : Ascends probe items)
    {target : Nat} :
    binarySearchBy items probe = .ok target ↔
      ∃ item, items[target]? = some item ∧ probe item = .eq := by
  constructor
  · intro hfound
    simp only [binarySearchBy] at hfound
    split at hfound <;> cases hfound
    next heq =>
      obtain ⟨item, hitem, hprobe⟩ := Option.map_eq_some_iff.mp heq
      exact ⟨item, hitem, hprobe⟩
  · rintro ⟨item, hitem, hprobe⟩
    obtain ⟨hbound, -⟩ := List.getElem?_eq_some_iff.mp hitem
    have hbase := searchBase_eq h hitem hprobe (Nat.zero_le _)
      (by rw [Nat.zero_add]; exact hbound) (by rw [Nat.zero_add])
    simp only [binarySearchBy, hbase, hitem, Option.map_some, hprobe]

end Ferratomic.Lib
