import Mathlib

/-!
# Models of a checker

A model that a checker explores: initial states, the actions that it tries in a state, the state
that an action leads to, if it leads to any, and a boundary beyond which states are not explored.
What holds of the initial states and is kept by every explored step holds of all states explored
(`Model.Reachable.invariant`).
-/

namespace Ferratomic.Lib

/-- A model over states and actions. -/
structure Model (σ α : Type) where
  initStates : List σ
  actions : σ → List α
  nextState : σ → α → Option σ
  withinBoundary : σ → Bool

namespace Model

variable {σ α : Type}

/-- The states that are explored. -/
inductive Reachable (model : Model σ α) : σ → Prop
  | init {state : σ} : state ∈ model.initStates → model.withinBoundary state = true →
      Reachable model state
  | step {state next : σ} {action : α} : Reachable model state → action ∈ model.actions state →
      model.nextState state action = some next → model.withinBoundary next = true →
      Reachable model next

/-- A property that the checker asserts of all states. -/
def Always (model : Model σ α) (property : σ → Prop) : Prop :=
  ∀ state, model.Reachable state → property state

/-- An invariant: it holds of the initial states, and the steps keep it. -/
structure Invariant (model : Model σ α) (invariant : σ → Prop) : Prop where
  init : ∀ state ∈ model.initStates, invariant state
  step : ∀ state action next, invariant state → action ∈ model.actions state →
    model.nextState state action = some next → invariant next

variable {model : Model σ α} {invariant property : σ → Prop}

/-- An invariant always holds. -/
theorem Invariant.always (h : model.Invariant invariant) : model.Always invariant := by
  intro state hreachable
  induction hreachable with
  | init hmem _ => exact h.init _ hmem
  | step _ haction hnext _ ih => exact h.step _ _ _ ih haction hnext

/-- What follows from a property that always holds always holds. -/
theorem Always.imp (h : model.Always invariant)
    (himp : ∀ state, invariant state → property state) : model.Always property :=
  fun state hreachable => himp state (h state hreachable)

/-- Any number of explored steps. -/
inductive Steps (model : Model σ α) : σ → σ → Prop
  | refl (state : σ) : Steps model state state
  | step {state next last : σ} {action : α} : action ∈ model.actions state →
      model.nextState state action = some next → model.withinBoundary next = true →
      Steps model next last → Steps model state last

/-- One action within the boundary is a run. -/
theorem Steps.single {state next : σ} {action : α} (haction : action ∈ model.actions state)
    (hnext : model.nextState state action = some next)
    (hboundary : model.withinBoundary next = true) : model.Steps state next :=
  .step haction hnext hboundary (.refl next)

/-- Two runs in turn are a run. -/
theorem Steps.trans {first second third : σ} (h : model.Steps first second)
    (hlater : model.Steps second third) : model.Steps first third := by
  induction h with
  | refl => exact hlater
  | step haction hnext hboundary _ ih => exact .step haction hnext hboundary (ih hlater)

/-- A run keeps an invariant. -/
theorem Invariant.steps (h : model.Invariant invariant) {state next : σ} (hinv : invariant state)
    (hsteps : model.Steps state next) : invariant next := by
  induction hsteps with
  | refl => exact hinv
  | step haction hnext _ _ ih => exact ih (h.step _ _ _ hinv haction hnext)

/-- What every step from a state of the invariant does, any number of steps do. -/
theorem Invariant.related (h : model.Invariant invariant) {related : σ → σ → Prop}
    (hrefl : ∀ state, related state state)
    (htrans : ∀ first second third, related first second → related second third →
      related first third)
    (hstep : ∀ state action next, invariant state → action ∈ model.actions state →
      model.nextState state action = some next → related state next)
    {state next : σ} (hinv : invariant state) (hsteps : model.Steps state next) :
    related state next := by
  induction hsteps with
  | refl => exact hrefl _
  | step haction hnext _ _ ih =>
      exact htrans _ _ _ (hstep _ _ _ hinv haction hnext) (ih (h.step _ _ _ hinv haction hnext))

/-- An action within the boundary leads from a reachable state to one. -/
theorem Reachable.after {state next : σ} (h : model.Reachable state) (action : α)
    (haction : action ∈ model.actions state) (hnext : model.nextState state action = some next)
    (hboundary : model.withinBoundary next = true) : model.Reachable next :=
  .step h haction hnext hboundary

/-- A reachable state is within the boundary. -/
theorem Reachable.within {state : σ} (h : model.Reachable state) :
    model.withinBoundary state = true := by
  cases h with
  | init _ hboundary => exact hboundary
  | step _ _ _ hboundary => exact hboundary

/-- A run leads from a reachable state to one. -/
theorem Reachable.steps {state next : σ} (h : model.Reachable state)
    (hsteps : model.Steps state next) : model.Reachable next := by
  induction hsteps with
  | refl => exact h
  | step haction hnext hboundary _ ih => exact ih (.step h haction hnext hboundary)

end Model

/-- In a sorted list, each item stands in order with the next. -/
theorem all_windows_of_pairwise {α : Type} {r : α → α → Prop} [DecidableRel r] {items : List α}
    (h : items.Pairwise r) :
    ((items.zip items.tail).all fun window => decide (r window.1 window.2)) = true := by
  induction items with
  | nil => rfl
  | cons first rest ih =>
      obtain ⟨hfirst, hrest⟩ := List.pairwise_cons.mp h
      cases rest with
      | nil => rfl
      | cons second rest =>
          rw [List.tail_cons, List.zip_cons_cons, List.all_cons, Bool.and_eq_true,
            decide_eq_true_eq]
          exact ⟨hfirst second List.mem_cons_self, ih hrest⟩

/-- An item of a list of which one item was modified. -/
theorem mem_modify {α : Type} {items : List α} {index : Nat} {f : α → α} {item : α}
    (h : item ∈ items.modify index f) : item ∈ items ∨ ∃ before ∈ items, item = f before := by
  obtain ⟨position, hposition⟩ := List.mem_iff_getElem?.mp h
  rw [List.getElem?_modify] at hposition
  obtain ⟨before, hbefore, hitem⟩ := Option.map_eq_some_iff.mp hposition
  split at hitem
  · exact .inr ⟨before, List.mem_of_getElem? hbefore, hitem.symm⟩
  · exact .inl (hitem ▸ List.mem_of_getElem? hbefore)

end Ferratomic.Lib
