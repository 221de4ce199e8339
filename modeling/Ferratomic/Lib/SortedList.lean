import Mathlib

/-!
# Strictly sorted lists

A strictly ascending list is a canonical form of a finite set. `sortDedup` brings any list into
this form and `mergeSortDedup` is the two-pointer merge of two such lists. The main theorems
say that both keep exactly the members (`mem_sortDedup`, `mem_mergeSortDedup`) and are strictly
ascending (`pairwise_sortDedup`, `pairwise_mergeSortDedup`), so that a result is determined by
its set of members (`eq_sort_toFinset`).
-/

namespace Ferratomic.Lib

variable {α : Type} [LinearOrder α]

/-- Drop every element equal to its successor. -/
def dedupRuns : List α → List α
  | [] => []
  | [x] => [x]
  | x :: y :: rest => if x = y then dedupRuns (y :: rest) else x :: dedupRuns (y :: rest)

/-- Sort a list and drop its duplicates. -/
def sortDedup (items : List α) : List α :=
  dedupRuns (items.insertionSort (· ≤ ·))

/-- Merge two ascending lists, keeping one copy of an element that both have. -/
def mergeSortDedup : List α → List α → List α
  | [], right => right
  | left, [] => left
  | x :: left, y :: right =>
      match compare x y with
      | .lt => x :: mergeSortDedup left (y :: right)
      | .gt => y :: mergeSortDedup (x :: left) right
      | .eq => x :: mergeSortDedup left right
termination_by left right => left.length + right.length

/-- Removing repetitions keeps every item. -/
@[simp]
theorem mem_dedupRuns {items : List α} {a : α} : a ∈ dedupRuns items ↔ a ∈ items := by
  fun_induction dedupRuns items with
  | case1 => rfl
  | case2 => rfl
  | case3 x rest ih =>
      rw [ih]
      simp
  | case4 x y rest hne ih =>
      simp only [List.mem_cons, ih]

/-- Dropping the duplicates of an ascending list leaves a strictly ascending one. -/
theorem pairwise_dedupRuns {items : List α} (h : items.Pairwise (· ≤ ·)) :
    (dedupRuns items).Pairwise (· < ·) := by
  fun_induction dedupRuns items with
  | case1 => exact List.Pairwise.nil
  | case2 x => exact List.pairwise_singleton _ x
  | case3 x rest ih => exact ih (List.pairwise_cons.mp h).2
  | case4 x y rest hne ih =>
      obtain ⟨hx, htail⟩ := List.pairwise_cons.mp h
      refine List.pairwise_cons.mpr ⟨fun a ha => ?_, ih htail⟩
      have hxy : x < y := lt_of_le_of_ne (hx y List.mem_cons_self) hne
      rcases List.mem_cons.mp (mem_dedupRuns.mp ha) with rfl | hrest
      · exact hxy
      · exact lt_of_lt_of_le hxy ((List.pairwise_cons.mp htail).1 a hrest)

/-- Sorting and removing repetitions keeps every item. -/
@[simp]
theorem mem_sortDedup {items : List α} {a : α} : a ∈ sortDedup items ↔ a ∈ items := by
  rw [sortDedup, mem_dedupRuns, List.mem_insertionSort]

/-- A sorted and deduplicated list is strictly ascending. -/
theorem pairwise_sortDedup (items : List α) : (sortDedup items).Pairwise (· < ·) :=
  pairwise_dedupRuns (List.pairwise_insertionSort (· ≤ ·) items)

/-- A merge has the items of both sides. -/
@[simp]
theorem mem_mergeSortDedup {left right : List α} {a : α} :
    a ∈ mergeSortDedup left right ↔ a ∈ left ∨ a ∈ right := by
  fun_induction mergeSortDedup left right with
  | case1 right => simp
  | case2 left hne => simp
  | case3 x left y right h ih => simp only [List.mem_cons, ih, or_assoc]
  | case4 x left y right h ih =>
      simp only [List.mem_cons, ih]
      tauto
  | case5 x left y right h ih =>
      have hxy : x = y := compare_eq_iff_eq.mp h
      simp only [List.mem_cons, ih, hxy]
      tauto

/-- Everything in `x :: items` is above a strict lower bound of `x`, when the list ascends. -/
theorem lt_of_mem_cons {b x a : α} {items : List α} (hbx : b < x)
    (h : (x :: items).Pairwise (· < ·)) (ha : a ∈ x :: items) : b < a := by
  rcases List.mem_cons.mp ha with rfl | hrest
  · exact hbx
  · exact lt_trans hbx ((List.pairwise_cons.mp h).1 a hrest)

/-- The merge of two strictly ascending lists is strictly ascending. -/
theorem pairwise_mergeSortDedup {left right : List α} (hl : left.Pairwise (· < ·))
    (hr : right.Pairwise (· < ·)) : (mergeSortDedup left right).Pairwise (· < ·) := by
  fun_induction mergeSortDedup left right with
  | case1 right => exact hr
  | case2 left hne => exact hl
  | case3 x left y right h ih =>
      obtain ⟨hx, htail⟩ := List.pairwise_cons.mp hl
      refine List.pairwise_cons.mpr ⟨fun a ha => ?_, ih htail hr⟩
      rcases mem_mergeSortDedup.mp ha with hleft | hright
      · exact hx a hleft
      · exact lt_of_mem_cons (compare_lt_iff_lt.mp h) hr hright
  | case4 x left y right h ih =>
      obtain ⟨hy, htail⟩ := List.pairwise_cons.mp hr
      refine List.pairwise_cons.mpr ⟨fun a ha => ?_, ih hl htail⟩
      rcases mem_mergeSortDedup.mp ha with hleft | hright
      · exact lt_of_mem_cons (compare_gt_iff_gt.mp h) hl hleft
      · exact hy a hright
  | case5 x left y right h ih =>
      have hxy : x = y := compare_eq_iff_eq.mp h
      obtain ⟨hx, htail⟩ := List.pairwise_cons.mp hl
      obtain ⟨hy, htail'⟩ := List.pairwise_cons.mp hr
      refine List.pairwise_cons.mpr ⟨fun a ha => ?_, ih htail htail'⟩
      rcases mem_mergeSortDedup.mp ha with hleft | hright
      · exact hx a hleft
      · exact hxy ▸ hy a hright

/-- Sorting and removing repetitions keeps the set. -/
@[simp]
theorem toFinset_sortDedup (items : List α) : (sortDedup items).toFinset = items.toFinset := by
  ext a
  simp

/-- A merge has the union of both sets. -/
@[simp]
theorem toFinset_mergeSortDedup (left right : List α) :
    (mergeSortDedup left right).toFinset = left.toFinset ∪ right.toFinset := by
  ext a
  simp

/-- A strictly ascending list lists its own set of members. -/
theorem eq_sort_toFinset {items : List α} (h : items.Pairwise (· < ·)) :
    items = items.toFinset.sort (· ≤ ·) :=
  h.eq_of_mem_iff (Finset.sortedLT_sort _).pairwise fun a => by simp

/-- Strictly ascending lists with the same set of members are equal. -/
theorem eq_of_toFinset_eq {left right : List α} (hl : left.Pairwise (· < ·))
    (hr : right.Pairwise (· < ·)) (h : left.toFinset = right.toFinset) : left = right := by
  rw [eq_sort_toFinset hl, eq_sort_toFinset hr, h]

/-- Sorting and deduplicating lists the set of members. -/
theorem sortDedup_eq_sort (items : List α) :
    sortDedup items = items.toFinset.sort (· ≤ ·) := by
  rw [eq_sort_toFinset (pairwise_sortDedup items), toFinset_sortDedup]

/-- Lists sort to the same list when they are permutations of each other. -/
theorem insertionSort_eq_iff {left right : List α} :
    left.insertionSort (· ≤ ·) = right.insertionSort (· ≤ ·) ↔ left.Perm right := by
  constructor
  · intro h
    have hleft := List.perm_insertionSort (· ≤ ·) left
    rw [h] at hleft
    exact hleft.symm.trans (List.perm_insertionSort (· ≤ ·) right)
  · intro h
    have hsorted : ((left.insertionSort (· ≤ ·)).Perm (right.insertionSort (· ≤ ·))) :=
      ((List.perm_insertionSort _ left).trans h).trans (List.perm_insertionSort _ right).symm
    exact hsorted.eq_of_pairwise' (List.pairwise_insertionSort _ left)
      (List.pairwise_insertionSort _ right)

/-- In a strictly ascending list the last reading is that of the greatest element that has one. -/
theorem getLast?_filterMap {β : Type} {read : α → Option β} {items : List α}
    (h : items.Pairwise (· < ·)) {last : α} (hlast : last ∈ items) {value : β}
    (hread : read last = some value)
    (hmax : ∀ a ∈ items, (read a).isSome → a ≤ last) :
    (items.filterMap read).getLast? = some value := by
  obtain ⟨before, after, rfl⟩ := List.append_of_mem hlast
  have hafter : after.filterMap read = [] := by
    refine List.filterMap_eq_nil_iff.mpr fun a ha => ?_
    have hlt : last < a :=
      (List.pairwise_cons.mp (List.pairwise_append.mp h).2.1).1 a ha
    by_contra hsome
    have hle := hmax a (List.mem_append_right _ (List.mem_cons_of_mem _ ha))
      (Option.isSome_iff_ne_none.mpr hsome)
    exact absurd hlt (not_lt.mpr hle)
  rw [List.filterMap_append, List.filterMap_cons, hread, hafter]
  exact List.getLast?_concat

/-- The first item of a sorted set is its least one. -/
theorem head?_sort {items : Finset α} {a : α} :
    (items.sort (· ≤ ·)).head? = some a ↔ IsLeast (items : Set α) a := by
  have hsorted := (Finset.sortedLT_sort items).pairwise
  have hmem : ∀ b, b ∈ items.sort (· ≤ ·) ↔ b ∈ (items : Set α) := fun b => Finset.mem_sort _
  cases hitems : items.sort (· ≤ ·) with
  | nil =>
      rw [hitems] at hmem
      exact iff_of_false nofun fun hleast => List.not_mem_nil ((hmem a).mpr hleast.1)
  | cons first rest =>
      rw [hitems] at hmem hsorted
      have hleast : IsLeast (items : Set α) first := by
        refine ⟨(hmem first).mp List.mem_cons_self, fun b hb => ?_⟩
        rcases List.mem_cons.mp ((hmem b).mpr hb) with rfl | hrest
        · exact le_rfl
        · exact ((List.pairwise_cons.mp hsorted).1 b hrest).le
      rw [List.head?_cons, Option.some.injEq]
      exact ⟨fun h => h ▸ hleast, fun h => hleast.unique h⟩

/-- The last item of an ascending list is its greatest one. -/
theorem getLast?_eq_some_iff_of_ascending {items : List α} (h : items.Pairwise (· < ·)) {a : α} :
    items.getLast? = some a ↔ a ∈ items ∧ ∀ b ∈ items, b ≤ a := by
  constructor
  · intro hlast
    obtain ⟨before, rfl⟩ := List.getLast?_eq_some_iff.mp hlast
    refine ⟨List.mem_append_right _ List.mem_cons_self, fun b hb => ?_⟩
    rcases List.mem_append.mp hb with hbefore | hb
    · exact ((List.pairwise_append.mp h).2.2 b hbefore a List.mem_cons_self).le
    · exact (List.mem_singleton.mp hb).le
  · rintro ⟨ha, hmax⟩
    obtain ⟨before, after, rfl⟩ := List.append_of_mem ha
    cases after with
    | nil => exact List.getLast?_concat
    | cons next after =>
        have hlt : a < next :=
          (List.pairwise_cons.mp (List.pairwise_append.mp h).2.1).1 next List.mem_cons_self
        have hle : next ≤ a :=
          hmax next (List.mem_append_right _ (List.mem_cons_of_mem _ List.mem_cons_self))
        exact absurd hlt (not_lt.mpr hle)

/-- In an ascending list any two items in ascending order stand in that order. -/
theorem pairwise_iff_of_ascending {items : List α} (h : items.Pairwise (· < ·))
    {R : α → α → Prop} :
    items.Pairwise R ↔ ∀ a ∈ items, ∀ b ∈ items, a < b → R a b := by
  constructor
  · intro hpairwise a ha b hb hlt
    induction items with
    | nil => exact absurd ha List.not_mem_nil
    | cons first rest ih =>
        obtain ⟨hfirst, hrest⟩ := List.pairwise_cons.mp h
        obtain ⟨hR, hlater⟩ := List.pairwise_cons.mp hpairwise
        rcases List.mem_cons.mp ha with rfl | harest
        · rcases List.mem_cons.mp hb with rfl | hbrest
          · exact absurd hlt (lt_irrefl _)
          · exact hR b hbrest
        · rcases List.mem_cons.mp hb with rfl | hbrest
          · exact absurd (hfirst a harest) hlt.asymm
          · exact ih hrest hlater harest hbrest
  · intro hall
    exact h.imp_of_mem fun ha hb hlt => hall _ ha _ hb hlt

end Ferratomic.Lib
