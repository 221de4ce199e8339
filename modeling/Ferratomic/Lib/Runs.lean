import Mathlib

/-!
# Runs

A list can be given as runs, each an item and how often it stands in a row. `expand` writes the list
out again and `start` is the position at which a run begins. The main theorem is `exists_run_iff`:
the runs partition the positions of the list; `findIdx_starts` finds the run of a position in the
list of their starts. `Maximal` describes the runs that are as long as they can be, and
`Maximal.push` and `Maximal.extend` the two steps of a scanner that collects them.
-/

namespace Ferratomic.Lib

variable {α : Type}

/-- The list that the runs stand for. -/
def expand (runs : List (α × Nat)) : List α :=
  runs.flatMap fun run => List.replicate run.2 run.1

/-- The position at which a run begins. -/
def start (runs : List (α × Nat)) (index : Nat) : Nat :=
  ((runs.take index).map Prod.snd).sum

/-- Two lists of runs expand to the concatenation. -/
theorem expand_append (runs more : List (α × Nat)) :
    expand (runs ++ more) = expand runs ++ expand more :=
  List.flatMap_append

/-- One run expands to its item, repeated. -/
theorem expand_singleton (run : α × Nat) : expand [run] = List.replicate run.2 run.1 :=
  List.flatMap_singleton _ run

/-- The first run begins at position 0. -/
@[simp]
theorem start_zero (runs : List (α × Nat)) : start runs 0 = 0 := rfl

/-- The later runs begin after the first one. -/
theorem start_cons_succ (run : α × Nat) (runs : List (α × Nat)) (index : Nat) :
    start (run :: runs) (index + 1) = run.2 + start runs index := by
  unfold start
  rw [List.take_succ_cons, List.map_cons, List.sum_cons]

/-- A run ends where the next one begins. -/
theorem start_succ {runs : List (α × Nat)} {index : Nat} {run : α × Nat}
    (h : runs[index]? = some run) : start runs (index + 1) = start runs index + run.2 := by
  unfold start
  rw [List.take_add_one, h, Option.toList_some, List.map_append, List.sum_append]
  rfl

/-- Later runs do not move earlier ones. -/
theorem start_append {runs : List (α × Nat)} {index : Nat} (h : index ≤ runs.length)
    (more : List (α × Nat)) : start (runs ++ more) index = start runs index := by
  unfold start
  rw [List.take_append_of_le_length h]

/-- The end of the last run is the end of the list. -/
theorem start_length (runs : List (α × Nat)) : start runs runs.length = (expand runs).length := by
  unfold start expand
  rw [List.take_length, List.length_flatMap]
  simp only [List.length_replicate]

/-- A later run begins no earlier. -/
theorem start_le_start (runs : List (α × Nat)) {i j : Nat} (h : i ≤ j) :
    start runs i ≤ start runs j := by
  unfold start
  have hsplit := (List.take_append_drop i (runs.take j)).symm
  rw [List.take_take, Nat.min_eq_left h] at hsplit
  rw [hsplit, List.map_append, List.sum_append]
  omega

/-- A run begins no later than the expansion ends. -/
theorem start_le_length (runs : List (α × Nat)) (index : Nat) :
    start runs index ≤ (expand runs).length := by
  by_cases hindex : index ≤ runs.length
  · rw [← start_length]
    exact start_le_start runs hindex
  · rw [← start_length]
    unfold start
    rw [List.take_of_length_le (by omega), List.take_length]

/-- Runs of positive lengths begin at ascending positions. -/
theorem start_lt_start {runs : List (α × Nat)} (hpos : ∀ run ∈ runs, 0 < run.2) {i j : Nat}
    (h : i < j) (hj : j ≤ runs.length) : start runs i < start runs j := by
  have hi : i < runs.length := by omega
  have hrun : runs[i]? = some runs[i] := List.getElem?_eq_getElem hi
  have hlength := hpos runs[i] (List.getElem_mem hi)
  have hnext := start_succ hrun
  have hle : start runs (i + 1) ≤ start runs j := start_le_start runs h
  omega

/-- The positions of a run hold its item. -/
theorem getElem?_expand {runs : List (α × Nat)} {index pos : Nat} {run : α × Nat}
    (hrun : runs[index]? = some run) (hlow : start runs index ≤ pos)
    (hhigh : pos < start runs (index + 1)) : (expand runs)[pos]? = some run.1 := by
  induction runs generalizing index pos with
  | nil => cases hrun
  | cons first rest ih =>
      have hexpand : expand (first :: rest) = List.replicate first.2 first.1 ++ expand rest := rfl
      rw [hexpand]
      cases index with
      | zero =>
          cases hrun
          rw [start_succ List.getElem?_cons_zero, start_zero, Nat.zero_add] at hhigh
          rw [List.getElem?_append_left (by rw [List.length_replicate]; exact hhigh)]
          exact List.getElem?_replicate_of_lt hhigh
      | succ index =>
          rw [start_cons_succ] at hlow hhigh
          rw [List.getElem?_append_right (by rw [List.length_replicate]; omega),
            List.length_replicate]
          exact ih hrun (by omega) (by omega)

/-- Every position of the list lies in a run. -/
theorem exists_run {runs : List (α × Nat)} {pos : Nat} (h : pos < (expand runs).length) :
    ∃ index < runs.length, start runs index ≤ pos ∧ pos < start runs (index + 1) := by
  induction runs generalizing pos with
  | nil => cases h
  | cons first rest ih =>
      have hexpand : expand (first :: rest) = List.replicate first.2 first.1 ++ expand rest := rfl
      rw [hexpand, List.length_append, List.length_replicate] at h
      -- past the first run the position is one of the rest, moved by the length of that run
      by_cases hfirst : pos < first.2
      · refine ⟨0, Nat.succ_pos _, Nat.zero_le pos, ?_⟩
        rw [start_succ List.getElem?_cons_zero, start_zero, Nat.zero_add]
        exact hfirst
      · have hrest : pos - first.2 < (expand rest).length := by omega
        obtain ⟨index, hindex, hlow, hhigh⟩ := ih hrest
        refine ⟨index + 1, Nat.succ_lt_succ hindex, ?_, ?_⟩
        · rw [start_cons_succ]
          omega
        · rw [start_cons_succ]
          omega

/-- Two runs have no position in common. -/
theorem run_unique {runs : List (α × Nat)} {pos i j : Nat} (hi : start runs i ≤ pos)
    (hi' : pos < start runs (i + 1)) (hj : start runs j ≤ pos) (hj' : pos < start runs (j + 1)) :
    i = j := by
  by_contra hne
  obtain hlt | hlt := Nat.lt_or_gt_of_ne hne
  · have hle := start_le_start runs (show i + 1 ≤ j from hlt)
    omega
  · have hle := start_le_start runs (show j + 1 ≤ i from hlt)
    omega

/-- The runs partition the positions of the list. -/
theorem exists_run_iff {runs : List (α × Nat)} {pos : Nat} :
    pos < (expand runs).length ↔
      ∃! index, index < runs.length ∧ start runs index ≤ pos ∧ pos < start runs (index + 1) := by
  constructor
  · intro hpos
    obtain ⟨index, hindex, hlow, hhigh⟩ := exists_run hpos
    refine ⟨index, ⟨hindex, hlow, hhigh⟩, ?_⟩
    intro other hother
    exact run_unique hother.2.1 hother.2.2 hlow hhigh
  · intro hrun
    obtain ⟨index, ⟨-, -, hhigh⟩, -⟩ := hrun
    exact lt_of_lt_of_le hhigh (start_le_length runs (index + 1))

section Starts

/-- The positions at which the runs begin, and the end of the last one. -/
def starts (runs : List (α × Nat)) : List Nat :=
  (List.range (runs.length + 1)).map (start runs)

/-- There is one start for each run and the end. -/
theorem length_starts (runs : List (α × Nat)) : (starts runs).length = runs.length + 1 := by
  unfold starts
  rw [List.length_map, List.length_range]

/-- The entries of the starts are the starts of the runs. -/
theorem getElem?_starts {runs : List (α × Nat)} {index : Nat} (h : index ≤ runs.length) :
    (starts runs)[index]? = some (start runs index) := by
  unfold starts
  rw [List.getElem?_map, List.getElem?_range (by omega)]
  rfl

/-- One more run gives one more end. -/
theorem starts_append (runs : List (α × Nat)) (run : α × Nat) :
    starts (runs ++ [run]) = starts runs ++ [(expand runs).length + run.2] := by
  have hlast : (runs ++ [run])[runs.length]? = some run := List.getElem?_concat_length
  have hend := start_succ hlast
  rw [start_append (Nat.le_refl _), start_length] at hend
  unfold starts
  rw [List.length_append, List.length_singleton, List.range_succ (n := runs.length + 1),
    List.map_append, List.map_singleton, hend]
  congr 1
  refine List.map_congr_left fun index hindex => ?_
  rw [List.mem_range] at hindex
  exact start_append (by omega) _

/-- The last of the starts is the length of the expansion. -/
theorem getLast?_starts (runs : List (α × Nat)) :
    (starts runs).getLast? = some (expand runs).length := by
  rw [List.getLast?_eq_getElem?, length_starts, Nat.add_sub_cancel, getElem?_starts (Nat.le_refl _),
    start_length]

/-- The first run that begins past a position follows the one that holds it. -/
theorem findIdx_starts {runs : List (α × Nat)} {index pos : Nat} (hindex : index < runs.length)
    (hlow : start runs index ≤ pos) (hhigh : pos < start runs (index + 1)) :
    (starts runs).findIdx (fun position => !decide (position ≤ pos)) = index + 1 := by
  have hlength := length_starts runs
  have hget (i : Nat) (hi : i < (starts runs).length) : (starts runs)[i] = start runs i :=
    (List.getElem_eq_iff hi).mpr (getElem?_starts (by omega))
  refine (List.findIdx_eq (by omega)).mpr ⟨?_, ?_⟩
  · rw [hget, decide_eq_false (by omega)]
    rfl
  · intro j hj
    -- the starts ascend, so that none of the earlier ones lies past the position
    have hle := start_le_start runs (show j ≤ index by omega)
    rw [hget, decide_eq_true (by omega)]
    rfl

end Starts

/-- The runs of a list, each as long as it can be. -/
structure Maximal (runs : List (α × Nat)) (items : List α) : Prop where
  expand_eq : expand runs = items
  pos : ∀ run ∈ runs, 0 < run.2
  differ : runs.IsChain fun run next => run.1 ≠ next.1

namespace Maximal

variable {runs : List (α × Nat)} {items : List α} {item other : α} {count : Nat}

/-- No runs are maximal for no items. -/
theorem nil : Maximal ([] : List (α × Nat)) [] :=
  ⟨rfl, nofun, .nil⟩

/-- One run of one item is maximal. -/
theorem singleton (item : α) : Maximal [(item, 1)] [item] :=
  ⟨rfl, fun run hrun => by rw [List.mem_singleton.mp hrun]; exact Nat.one_pos, .singleton _⟩

/-- The last run is extended by its item. -/
theorem extend (h : Maximal (runs ++ [(item, count)]) items) :
    Maximal (runs ++ [(item, count + 1)]) (items ++ [item]) where
  expand_eq := by
    rw [← h.expand_eq, expand_append, expand_append, expand_singleton, expand_singleton,
      List.append_assoc, ← List.replicate_succ']
  pos run hrun := by
    obtain hrun | hrun := List.mem_append.mp hrun
    · exact h.pos run (List.mem_append_left _ hrun)
    · rw [List.mem_singleton.mp hrun]
      exact Nat.succ_pos count
  differ := by
    have hdiffer := List.isChain_append.mp h.differ
    refine List.isChain_append.mpr ⟨hdiffer.1, .singleton _, ?_⟩
    intro last hlast next hnext
    obtain rfl := Option.some.inj hnext
    exact hdiffer.2.2 last hlast (item, count) rfl

/-- Another item begins a run. -/
theorem push (h : Maximal (runs ++ [(item, count)]) items) (hne : item ≠ other) :
    Maximal (runs ++ [(item, count)] ++ [(other, 1)]) (items ++ [other]) where
  expand_eq := by
    rw [expand_append, h.expand_eq]
    rfl
  pos run hrun := by
    obtain hrun | hrun := List.mem_append.mp hrun
    · exact h.pos run hrun
    · rw [List.mem_singleton.mp hrun]
      exact Nat.one_pos
  differ := by
    refine List.isChain_append.mpr ⟨h.differ, .singleton _, ?_⟩
    intro last hlast next hnext
    rw [List.getLast?_concat] at hlast
    obtain rfl := Option.some.inj hlast
    obtain rfl := Option.some.inj hnext
    exact hne

end Maximal

end Ferratomic.Lib
