import Ferratomic.Lib.BinarySearch

/-!
# Searching a window

A search of an ascending list looks at one position of a window, both ends included, and goes on in
the part of the window that is left. The rule that picks the position is free: as long as it stays
in the window the search ends and finds what the probe accepts. The main theorem is
`windowSearch_eq`; `Visits` is the relation between a window and those the search goes on in.
-/

namespace Ferratomic.Lib

variable {α : Type}

/-- The positions that a search has not excluded yet, both ends included. -/
@[ext]
structure Window where
  lo : Nat
  hi : Nat
  deriving DecidableEq, Repr

/-- Everything that the probe accepts stands in the window. -/
def Window.Holds (w : Window) (probe : α → Ordering) (items : List α) : Prop :=
  ∀ (i : Nat) (item : α), items[i]? = some item → probe item = .eq → w.lo ≤ i ∧ i ≤ w.hi

/-- What is accepted stands behind everything below it. -/
theorem Ascends.lt_of_below {probe : α → Ordering} {items : List α} (h : Ascends probe items)
    {i j : Nat} {x y : α} (hi : items[i]? = some x) (hj : items[j]? = some y)
    (hx : probe x = .lt) (hy : probe y = .eq) : i < j := by
  by_contra hle
  rcases Nat.lt_or_eq_of_le (Nat.le_of_not_lt hle) with hlt | rfl
  · have hbelow := h.getElem? hlt hj hi (by rw [hx]; decide)
    rw [hy] at hbelow
    cases hbelow
  · rw [hi] at hj
    cases hj
    rw [hx] at hy
    cases hy

/-- What is accepted stands in front of everything above it. -/
theorem Ascends.lt_of_above {probe : α → Ordering} {items : List α} (h : Ascends probe items)
    {i j : Nat} {x y : α} (hi : items[i]? = some x) (hj : items[j]? = some y)
    (hx : probe x = .gt) (hy : probe y = .eq) : j < i := by
  by_contra hle
  rcases Nat.lt_or_eq_of_le (Nat.le_of_not_lt hle) with hlt | rfl
  · have hbelow := h.getElem? hlt hi hj (by rw [hy]; decide)
    rw [hx] at hbelow
    cases hbelow
  · rw [hi] at hj
    cases hj
    rw [hx] at hy
    cases hy

section Search

variable (rule : Window → Nat) (probe : α → Ordering) (items : List α)

/-- Look at one position of a window: the search ends, or a smaller window is left. -/
def windowStep (w : Window) : Option α ⊕ Window :=
  match items[rule w]? with
  | none => .inl none
  | some item =>
      match probe item with
      | .eq => .inl (some item)
      | .lt => .inr ⟨rule w + 1, w.hi⟩
      | .gt => if rule w = 0 then .inl none else .inr ⟨w.lo, rule w - 1⟩

/-- Look at positions until the search ends; `none` when the fuel does not last. -/
def windowSearch : Nat → Window → Option (Option α)
  | 0, _ => none
  | fuel + 1, w =>
      if w.lo ≤ w.hi then
        match windowStep rule probe items w with
        | .inl result => some result
        | .inr rest => windowSearch fuel rest
      else some none

/-- The search of the first window goes on in the second. -/
inductive Visits : Window → Window → Prop where
  | here (w : Window) : Visits w w
  | later {w rest last : Window} : w.lo ≤ w.hi → windowStep rule probe items w = .inr rest →
      Visits rest last → Visits w last

end Search

section Correct

variable {rule : Window → Nat} {probe : α → Ordering} {items : List α}

/-- A rule looks at positions of the window only. -/
def StaysInside (rule : Window → Nat) : Prop :=
  ∀ w : Window, w.lo ≤ w.hi → w.lo ≤ rule w ∧ rule w ≤ w.hi

/-- What is left of a window lies below its upper end. -/
theorem windowStep_hi_le (hrule : StaysInside rule) {w rest : Window} (hle : w.lo ≤ w.hi)
    (hstep : windowStep rule probe items w = .inr rest) : rest.hi ≤ w.hi := by
  obtain ⟨-, hhigh⟩ := hrule w hle
  rw [windowStep] at hstep
  split at hstep
  case h_1 => cases hstep
  case h_2 item _ =>
      split at hstep
      case h_1 => cases hstep
      case h_2 =>
          cases hstep
          exact Nat.le_refl _
      case h_3 =>
          split at hstep
          case isTrue => cases hstep
          case isFalse =>
              cases hstep
              show rule w - 1 ≤ w.hi
              omega

/-- A step of the search either ends it with what the probe accepts or leaves a smaller window that
still holds it. -/
theorem windowStep_spec (hrule : StaysInside rule) (h : Ascends probe items) {w : Window}
    (hle : w.lo ≤ w.hi) (hbound : w.hi < items.length) (hholds : w.Holds probe items) :
    (∃ result, windowStep rule probe items w = .inl result ∧
      ∀ item, result = some item ↔ item ∈ items ∧ probe item = .eq) ∨
    ∃ rest, windowStep rule probe items w = .inr rest ∧ rest.Holds probe items ∧
      rest.hi < items.length ∧ rest.hi + 1 - rest.lo < w.hi + 1 - w.lo := by
  obtain ⟨hlow, hhigh⟩ := hrule w hle
  have hget : items[rule w]? = some items[rule w] := List.getElem?_eq_getElem (by omega)
  rw [windowStep, hget]
  cases hprobe : probe items[rule w] with
  | eq =>
      refine .inl ⟨some items[rule w], by simp only [hprobe], fun item => ⟨?_, ?_⟩⟩
      · intro heq
        obtain rfl := Option.some.inj heq
        exact ⟨List.getElem_mem _, hprobe⟩
      · rintro ⟨hmem, hitem⟩
        obtain ⟨i, hi⟩ := List.mem_iff_getElem?.mp hmem
        -- two accepted positions are one
        rcases lt_trichotomy i (rule w) with hlt | heq | hgt
        · have := h.getElem? hlt hi hget (by rw [hprobe]; decide)
          rw [hitem] at this
          cases this
        · rw [← hget, ← heq, hi]
        · have := h.getElem? hgt hget hi (by rw [hitem]; decide)
          rw [hprobe] at this
          cases this
  | lt =>
      refine .inr ⟨⟨rule w + 1, w.hi⟩, by simp only [hprobe], fun i item hi hitem => ?_, hbound,
        ?_⟩
      · exact ⟨h.lt_of_below hget hi hprobe hitem, (hholds i item hi hitem).2⟩
      · show w.hi + 1 - (rule w + 1) < w.hi + 1 - w.lo
        omega
  | gt =>
      by_cases hzero : rule w = 0
      · refine .inl ⟨none, by simp only [hprobe, if_pos hzero], fun item => ⟨nofun, ?_⟩⟩
        rintro ⟨hmem, hitem⟩
        obtain ⟨i, hi⟩ := List.mem_iff_getElem?.mp hmem
        have := h.lt_of_above hget hi hprobe hitem
        omega
      · refine .inr ⟨⟨w.lo, rule w - 1⟩, by simp only [hprobe, if_neg hzero],
          fun i item hi hitem => ?_, ?_, ?_⟩
        · have := h.lt_of_above hget hi hprobe hitem
          exact ⟨(hholds i item hi hitem).1, Nat.le_sub_one_of_lt this⟩
        · show rule w - 1 < items.length
          omega
        · show rule w - 1 + 1 - w.lo < w.hi + 1 - w.lo
          omega

/-- Every window that the search goes on in holds what the first one held. -/
theorem Visits.holds (hrule : StaysInside rule) (h : Ascends probe items) {w last : Window}
    (hvisits : Visits rule probe items w last) (hbound : w.hi < items.length)
    (hholds : w.Holds probe items) : last.hi < items.length ∧ last.Holds probe items := by
  induction hvisits with
  | here w => exact ⟨hbound, hholds⟩
  | later hle hstep _ ih =>
      rcases windowStep_spec hrule h hle hbound hholds with
        ⟨result, hdone, -⟩ | ⟨rest, hrest, hholds', hbound', -⟩
      · rw [hstep] at hdone
        cases hdone
      · rw [hstep] at hrest
        cases hrest
        exact ih hbound' hholds'

/-- A search by any rule that stays in the window ends, and finds what the probe accepts. -/
theorem windowSearch_spec (hrule : StaysInside rule) (h : Ascends probe items) {w : Window}
    (hbound : w.hi < items.length) (hholds : w.Holds probe items) {fuel : Nat}
    (hfuel : w.hi + 1 - w.lo < fuel) :
    ∃ result, windowSearch rule probe items fuel w = some result ∧
      ∀ item, result = some item ↔ item ∈ items ∧ probe item = .eq := by
  induction fuel generalizing w with
  | zero => exact absurd hfuel (Nat.not_lt_zero _)
  | succ fuel ih =>
      rw [windowSearch]
      by_cases hle : w.lo ≤ w.hi
      · rw [if_pos hle]
        rcases windowStep_spec hrule h hle hbound hholds with
          ⟨result, hstep, hresult⟩ | ⟨rest, hstep, hrest, hbound', hsmaller⟩
        · exact ⟨result, by rw [hstep], hresult⟩
        · rw [hstep]
          exact ih hbound' hrest (by omega)
      · refine ⟨none, if_neg hle, fun item => ⟨nofun, ?_⟩⟩
        rintro ⟨hmem, hitem⟩
        obtain ⟨i, hi⟩ := List.mem_iff_getElem?.mp hmem
        have := hholds i item hi hitem
        omega

end Correct

end Ferratomic.Lib
