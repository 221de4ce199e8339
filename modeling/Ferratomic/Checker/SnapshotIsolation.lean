import Ferratomic.Lib.Checker
import Ferratomic.Lib.OrdMap

/-!
# The model of snapshot isolation

The checker's model of one store with concurrent readers. A commit advances the epoch and files its
datoms under it; a reader captures the epoch and the union of all datoms filed up to it. The source
explores identifiers below a bound, with counters of eight bits that the guards keep below the
bounds of the model; here the domain is any list of identifiers. The main theorem,
`snapshots_isolated`, says that the asserted properties hold at every bound.
-/

namespace Ferratomic.Checker

open Lib

variable {δ : Type} [DecidableEq δ]

/-- The state of the model. -/
structure SnapshotIsolationState (δ : Type) where
  currentEpoch : Nat
  datomsByEpoch : OrdMap Nat (Finset δ)
  readerSnapshots : List (Nat × Finset δ)
  pendingWrite : Option (List δ)
  totalWrites : Nat
  snapshotVerified : Bool
  observerEpochHistory : List (List Nat)

/-- The actions of the model. -/
inductive SnapshotAction (δ : Type) where
  | startRead (observer : Nat)
  | startWrite (datomIds : List δ)
  | commitWrite
  | verifySnapshot (index : Nat)

/-- The bounds of the model and the identifiers that it writes. -/
structure SnapshotIsolationModel (δ : Type) where
  maxEpochs : Nat
  domain : List δ
  maxReaders : Nat
  maxWrites : Nat

/-- `visible_datoms_at_epoch`: all datoms filed at an epoch or before it. -/
def visibleDatomsAtEpoch (datomsByEpoch : OrdMap Nat (Finset δ)) (epoch : Nat) : Finset δ :=
  datomsByEpoch.toList.foldl
    (fun result entry => if entry.1 ≤ epoch then result ∪ entry.2 else result) ∅

/-- `snapshot_satisfies_isolation`: no datom of a snapshot is filed after its epoch only. -/
def snapshotSatisfiesIsolation (datomsByEpoch : OrdMap Nat (Finset δ)) (capturedEpoch : Nat)
    (visibleDatoms : Finset δ) : Bool :=
  let futureDatoms := datomsByEpoch.toList.foldl
    (fun result entry => if entry.1 > capturedEpoch then result ∪ entry.2 else result) ∅
  decide (∀ datomId ∈ visibleDatoms,
    (datomsByEpoch.toList.any fun entry => entry.1 ≤ capturedEpoch && datomId ∈ entry.2) = true ∨
      datomId ∉ futureDatoms)

namespace SnapshotIsolationModel

variable (model : SnapshotIsolationModel δ)

/-- `datom_subsets`: all non-empty subsets of the domain. -/
def datomSubsets : List (List δ) :=
  model.domain.sublists.tail

/-- `init_states`: nothing written and nothing read. -/
def initStates : List (SnapshotIsolationState δ) :=
  [⟨0, ∅, [], none, 0, false, List.replicate model.maxReaders []⟩]

/-- `actions`: what the checker tries in a state. -/
def actions (state : SnapshotIsolationState δ) : List (SnapshotAction δ) :=
  (if state.readerSnapshots.length < model.maxReaders then
    (List.range model.maxReaders).map .startRead
  else []) ++
  (if state.pendingWrite.isNone ∧ state.totalWrites < model.maxWrites ∧
      state.currentEpoch < model.maxEpochs then
    model.datomSubsets.map .startWrite
  else []) ++
  (if state.pendingWrite.isSome then [.commitWrite] else []) ++
  (List.range state.readerSnapshots.length).map .verifySnapshot

/-- `next_state`: the state after an action, if the action is enabled. -/
def nextState (state : SnapshotIsolationState δ) :
    SnapshotAction δ → Option (SnapshotIsolationState δ)
  | .startRead observer =>
      if state.readerSnapshots.length ≥ model.maxReaders then none
      else if observer ≥ model.maxReaders then none
      else
        let epoch := state.currentEpoch
        let visible := visibleDatomsAtEpoch state.datomsByEpoch epoch
        some { state with
          readerSnapshots := state.readerSnapshots ++ [(epoch, visible)]
          observerEpochHistory :=
            state.observerEpochHistory.modify observer (· ++ [epoch]) }
  | .startWrite datomIds =>
      if state.pendingWrite.isSome then none
      else if state.totalWrites ≥ model.maxWrites then none
      else if state.currentEpoch ≥ model.maxEpochs then none
      else some { state with pendingWrite := some datomIds }
  | .commitWrite =>
      match state.pendingWrite with
      | none => none
      | some datomIds =>
          let epoch := state.currentEpoch + 1
          some { state with
            pendingWrite := none
            currentEpoch := epoch
            datomsByEpoch := state.datomsByEpoch.insert epoch datomIds.toFinset
            totalWrites := state.totalWrites + 1 }
  | .verifySnapshot index =>
      if index ≥ state.readerSnapshots.length then none
      else some { state with snapshotVerified := true }

/-- `within_boundary`: the states that the checker explores. -/
def withinBoundary (state : SnapshotIsolationState δ) : Bool :=
  decide (state.currentEpoch ≤ model.maxEpochs) &&
    decide (state.readerSnapshots.length ≤ model.maxReaders) &&
    decide (state.totalWrites ≤ model.maxWrites) &&
    (state.datomsByEpoch.toList.all fun entry => decide (∀ id ∈ entry.2, id ∈ model.domain)) &&
    (state.observerEpochHistory.all fun history => decide (history.length ≤ model.maxReaders))

/-- The model as the checker explores it. -/
def checked : Model (SnapshotIsolationState δ) (SnapshotAction δ) :=
  ⟨model.initStates, model.actions, model.nextState, model.withinBoundary⟩

end SnapshotIsolationModel

namespace SnapshotIsolationState

/-- `inv_ferr_006_snapshot_isolation_safety`. -/
def isolationSafety (state : SnapshotIsolationState δ) : Bool :=
  state.readerSnapshots.all fun snapshot =>
    snapshotSatisfiesIsolation state.datomsByEpoch snapshot.1 snapshot.2

/-- `inv_ferr_006_snapshot_completeness`. -/
def snapshotCompleteness (state : SnapshotIsolationState δ) : Bool :=
  state.readerSnapshots.all fun snapshot =>
    decide (snapshot.2 = visibleDatomsAtEpoch state.datomsByEpoch snapshot.1)

/-- `inv_ferr_011_observer_monotonicity`. -/
def observerMonotonicity (state : SnapshotIsolationState δ) : Bool :=
  state.observerEpochHistory.all fun history =>
    (history.zip history.tail).all fun window => decide (window.1 ≤ window.2)

end SnapshotIsolationState

/-- The fold collects what was filed before and the entries that are selected. -/
theorem mem_foldl_filed {entries : List (Nat × Finset δ)} {p : Nat → Prop}
    [DecidablePred p] {filed : Finset δ} {id : δ} :
    id ∈ entries.foldl
        (fun result entry => if p entry.1 then result ∪ entry.2 else result) filed ↔
      id ∈ filed ∨ ∃ entry ∈ entries, p entry.1 ∧ id ∈ entry.2 := by
  induction entries generalizing filed with
  | nil => simp
  | cons entry rest ih =>
      rw [List.foldl_cons, ih]
      by_cases hkeep : p entry.1
      · simp [hkeep, or_assoc]
      · simp [hkeep]

/-- A datom is visible at an epoch when it is filed under one of at most that epoch. -/
theorem mem_visibleDatomsAtEpoch {datomsByEpoch : OrdMap Nat (Finset δ)} {epoch : Nat} {id : δ} :
    id ∈ visibleDatomsAtEpoch datomsByEpoch epoch ↔
      ∃ at' ids, datomsByEpoch[at']? = some ids ∧ at' ≤ epoch ∧ id ∈ ids := by
  rw [visibleDatomsAtEpoch, mem_foldl_filed (p := fun at' => at' ≤ epoch)]
  simp

/-- What is filed after an epoch is not visible at it. -/
theorem visibleDatomsAtEpoch_insert {datomsByEpoch : OrdMap Nat (Finset δ)} {epoch later : Nat}
    (h : epoch < later) (ids : Finset δ) :
    visibleDatomsAtEpoch (datomsByEpoch.insert later ids) epoch =
      visibleDatomsAtEpoch datomsByEpoch epoch := by
  ext id
  rw [mem_visibleDatomsAtEpoch, mem_visibleDatomsAtEpoch]
  constructor
  · intro hid
    obtain ⟨at', filed, hfiled, hle, hmem⟩ := hid
    have hne : later ≠ at' := by omega
    rw [OrdMap.getElem?_insert_eq, if_neg hne] at hfiled
    exact ⟨at', filed, hfiled, hle, hmem⟩
  · intro hid
    obtain ⟨at', filed, hfiled, hle, hmem⟩ := hid
    have hne : later ≠ at' := by omega
    refine ⟨at', filed, ?_, hle, hmem⟩
    rw [OrdMap.getElem?_insert_eq, if_neg hne]
    exact hfiled

/-- A snapshot of all that is visible at its epoch is isolated. -/
theorem snapshotSatisfiesIsolation_visible (datomsByEpoch : OrdMap Nat (Finset δ)) (epoch : Nat) :
    snapshotSatisfiesIsolation datomsByEpoch epoch
      (visibleDatomsAtEpoch datomsByEpoch epoch) = true := by
  refine decide_eq_true fun id hid => .inl ?_
  obtain ⟨at', ids, hfiled, hle, hmem⟩ := mem_visibleDatomsAtEpoch.mp hid
  refine List.any_eq_true.mpr ⟨(at', ids), OrdMap.mem_toList.mpr hfiled, ?_⟩
  rw [Bool.and_eq_true, decide_eq_true_eq, decide_eq_true_eq]
  exact ⟨hle, hmem⟩

namespace SnapshotIsolationState

/-- The invariant of the model: nothing is filed, captured or recorded at an epoch to come, and what
was captured is what is filed up to then. -/
structure Inv (state : SnapshotIsolationState δ) : Prop where
  filed : ∀ epoch ids, state.datomsByEpoch[epoch]? = some ids → epoch ≤ state.currentEpoch
  captured : ∀ snapshot ∈ state.readerSnapshots, snapshot.1 ≤ state.currentEpoch ∧
    snapshot.2 = visibleDatomsAtEpoch state.datomsByEpoch snapshot.1
  recorded : ∀ history ∈ state.observerEpochHistory, history.Pairwise (· ≤ ·) ∧
    ∀ epoch ∈ history, epoch ≤ state.currentEpoch

/-- A reader captures the current epoch. -/
theorem Inv.startRead {state : SnapshotIsolationState δ} (h : state.Inv) (observer : Nat) :
    Inv { state with
      readerSnapshots := state.readerSnapshots ++
        [(state.currentEpoch, visibleDatomsAtEpoch state.datomsByEpoch state.currentEpoch)]
      observerEpochHistory :=
        state.observerEpochHistory.modify observer (· ++ [state.currentEpoch]) } := by
  refine ⟨h.filed, fun snapshot hsnapshot => ?_, fun history hhistory => ?_⟩
  · rcases List.mem_append.mp hsnapshot with hold | hnew
    · exact h.captured snapshot hold
    · rw [List.mem_singleton.mp hnew]
      exact ⟨Nat.le_refl _, rfl⟩
  · rcases mem_modify hhistory with hold | ⟨before, hbefore, rfl⟩
    · exact h.recorded history hold
    · obtain ⟨hsorted, hupto⟩ := h.recorded before hbefore
      refine ⟨List.pairwise_append.mpr ⟨hsorted, List.pairwise_singleton _ _, ?_⟩, ?_⟩
      · intro epoch hepoch later hlater
        rw [List.mem_singleton.mp hlater]
        exact hupto epoch hepoch
      · intro epoch hepoch
        rcases List.mem_append.mp hepoch with hold | hnew
        · exact hupto epoch hold
        · exact Nat.le_of_eq (List.mem_singleton.mp hnew)

/-- A commit files its datoms at an epoch that no snapshot has captured. -/
theorem Inv.commitWrite {state : SnapshotIsolationState δ} (h : state.Inv) (ids : Finset δ)
    (writes : Nat) :
    Inv { state with
      pendingWrite := none
      currentEpoch := state.currentEpoch + 1
      datomsByEpoch := state.datomsByEpoch.insert (state.currentEpoch + 1) ids
      totalWrites := writes } := by
  refine ⟨fun epoch filed hfiled => ?_, fun snapshot hsnapshot => ?_, fun history hhistory => ?_⟩
  · rw [OrdMap.getElem?_insert_eq] at hfiled
    split at hfiled
    case isTrue heq => exact Nat.le_of_eq heq.symm
    case isFalse => exact Nat.le_succ_of_le (h.filed epoch filed hfiled)
  · obtain ⟨hle, hvisible⟩ := h.captured snapshot hsnapshot
    refine ⟨Nat.le_succ_of_le hle, ?_⟩
    rw [visibleDatomsAtEpoch_insert (Nat.lt_succ_of_le hle)]
    exact hvisible
  · obtain ⟨hsorted, hupto⟩ := h.recorded history hhistory
    exact ⟨hsorted, fun epoch hepoch => Nat.le_succ_of_le (hupto epoch hepoch)⟩

/-- Every action keeps the invariant. -/
theorem Inv.nextState {state next : SnapshotIsolationState δ} (h : state.Inv)
    {model : SnapshotIsolationModel δ} {action : SnapshotAction δ}
    (hnext : model.nextState state action = some next) : next.Inv := by
  cases action with
  | startRead observer =>
      simp only [SnapshotIsolationModel.nextState] at hnext
      split at hnext
      · cases hnext
      · split at hnext
        · cases hnext
        · cases hnext
          exact h.startRead observer
  | startWrite datomIds =>
      simp only [SnapshotIsolationModel.nextState] at hnext
      split at hnext
      · cases hnext
      · split at hnext
        · cases hnext
        · split at hnext
          · cases hnext
          · cases hnext
            exact ⟨h.filed, h.captured, h.recorded⟩
  | commitWrite =>
      simp only [SnapshotIsolationModel.nextState] at hnext
      split at hnext
      · cases hnext
      · cases hnext
        exact h.commitWrite _ _
  | verifySnapshot index =>
      simp only [SnapshotIsolationModel.nextState] at hnext
      split at hnext
      · cases hnext
      · cases hnext
        exact ⟨h.filed, h.captured, h.recorded⟩

/-- The invariant holds of the initial states. -/
theorem Inv.init (model : SnapshotIsolationModel δ) :
    ∀ state ∈ model.initStates, state.Inv := by
  intro state hstate
  rw [List.mem_singleton.mp hstate]
  refine ⟨fun epoch ids hfiled => ?_, fun snapshot hsnapshot => ?_, fun history hhistory => ?_⟩
  · simp at hfiled
  · exact absurd hsnapshot List.not_mem_nil
  · rw [List.eq_of_mem_replicate hhistory]
    exact ⟨.nil, fun epoch hepoch => absurd hepoch List.not_mem_nil⟩

/-- Under the invariant the checker's completeness property holds. -/
theorem Inv.snapshotCompleteness {state : SnapshotIsolationState δ} (h : state.Inv) :
    state.snapshotCompleteness = true :=
  List.all_eq_true.mpr fun snapshot hsnapshot => decide_eq_true (h.captured snapshot hsnapshot).2

/-- Under the invariant the checker's isolation property holds. -/
theorem Inv.isolationSafety {state : SnapshotIsolationState δ} (h : state.Inv) :
    state.isolationSafety = true := by
  refine List.all_eq_true.mpr fun snapshot hsnapshot => ?_
  rw [(h.captured snapshot hsnapshot).2]
  exact snapshotSatisfiesIsolation_visible _ _

/-- Under the invariant the checker's monotonicity property holds. -/
theorem Inv.observerMonotonicity {state : SnapshotIsolationState δ} (h : state.Inv) :
    state.observerMonotonicity = true :=
  List.all_eq_true.mpr fun history hhistory =>
    all_windows_of_pairwise (h.recorded history hhistory).1

end SnapshotIsolationState

namespace SnapshotIsolationModel

/-- The invariant holds in every state the checker visits. -/
theorem invariant_checked (model : SnapshotIsolationModel δ) :
    model.checked.Invariant SnapshotIsolationState.Inv :=
  ⟨SnapshotIsolationState.Inv.init model, fun _ _ _ h _ hnext => h.nextState hnext⟩

/-- The properties that the checker asserts hold at every bound. -/
theorem snapshots_isolated (model : SnapshotIsolationModel δ) :
    model.checked.Always fun state => state.isolationSafety = true ∧
      state.snapshotCompleteness = true ∧ state.observerMonotonicity = true :=
  model.invariant_checked.always.imp fun _ h =>
    ⟨h.isolationSafety, h.snapshotCompleteness, h.observerMonotonicity⟩

omit [DecidableEq δ] in
/-- The empty list is the first sublist. -/
theorem exists_sublists_eq (domain : List δ) : ∃ rest, domain.sublists = [] :: rest := by
  induction domain with
  | nil => exact ⟨[], rfl⟩
  | cons id domain ih =>
      obtain ⟨rest, hrest⟩ := ih
      refine ⟨[id] :: rest.flatMap fun subset => [subset, id :: subset], ?_⟩
      rw [List.sublists_cons, hrest]
      rfl

omit [DecidableEq δ] in
/-- Every sublist of the domain that is not empty is written by some action. -/
theorem mem_datomSubsets {model : SnapshotIsolationModel δ} {datomIds : List δ}
    (hsublist : List.Sublist datomIds model.domain) (hne : datomIds ≠ []) :
    datomIds ∈ model.datomSubsets := by
  obtain ⟨rest, hrest⟩ := exists_sublists_eq model.domain
  have hmem := List.mem_sublists.mpr hsublist
  rw [hrest] at hmem
  rw [datomSubsets, hrest, List.tail_cons]
  exact (List.mem_cons.mp hmem).resolve_left hne

/-- The states that are explored. -/
structure Within (model : SnapshotIsolationModel δ) (state : SnapshotIsolationState δ) : Prop where
  epoch : state.currentEpoch ≤ model.maxEpochs
  readers : state.readerSnapshots.length ≤ model.maxReaders
  writes : state.totalWrites ≤ model.maxWrites
  ids : ∀ entry ∈ state.datomsByEpoch.toList, ∀ id ∈ entry.2, id ∈ model.domain
  histories : ∀ history ∈ state.observerEpochHistory, history.length ≤ model.maxReaders

/-- The boundary test is the boundary of the model. -/
theorem withinBoundary_iff {model : SnapshotIsolationModel δ} {state : SnapshotIsolationState δ} :
    model.withinBoundary state = true ↔ model.Within state := by
  simp only [withinBoundary, Bool.and_eq_true, decide_eq_true_eq, List.all_eq_true]
  exact ⟨fun ⟨⟨⟨⟨h₁, h₂⟩, h₃⟩, h₄⟩, h₅⟩ => ⟨h₁, h₂, h₃, h₄, h₅⟩,
    fun ⟨h₁, h₂, h₃, h₄, h₅⟩ => ⟨⟨⟨⟨h₁, h₂⟩, h₃⟩, h₄⟩, h₅⟩⟩

end SnapshotIsolationModel

namespace SnapshotIsolationState

/-- Commit one set of datoms, at the next epoch. -/
def commit (state : SnapshotIsolationState δ) (ids : Finset δ) : SnapshotIsolationState δ :=
  { state with
    currentEpoch := state.currentEpoch + 1
    datomsByEpoch := state.datomsByEpoch.insert (state.currentEpoch + 1) ids
    totalWrites := state.totalWrites + 1 }

end SnapshotIsolationState

namespace SnapshotIsolationModel

omit [DecidableEq δ] in
/-- A commit of datoms of the domain stays within the boundary. -/
theorem Within.commit {model : SnapshotIsolationModel δ} {state : SnapshotIsolationState δ}
    (h : model.Within state) (hepoch : state.currentEpoch < model.maxEpochs)
    (hwrites : state.totalWrites < model.maxWrites) {ids : Finset δ}
    (hids : ∀ id ∈ ids, id ∈ model.domain) : model.Within (state.commit ids) := by
  refine ⟨hepoch, h.readers, hwrites, fun entry hentry => ?_, h.histories⟩
  obtain ⟨epoch, filed⟩ := entry
  have hfiled := OrdMap.mem_toList.mp hentry
  rw [SnapshotIsolationState.commit, OrdMap.getElem?_insert_eq] at hfiled
  split at hfiled
  · cases hfiled
    exact hids
  · exact h.ids (epoch, filed) (OrdMap.mem_toList.mpr hfiled)

/-- A write is begun and committed. -/
theorem steps_commit {model : SnapshotIsolationModel δ} {state : SnapshotIsolationState δ}
    (h : model.Within state) (hpending : state.pendingWrite = none)
    (hepoch : state.currentEpoch < model.maxEpochs) (hwrites : state.totalWrites < model.maxWrites)
    {ids : Finset δ} (hne : ids.Nonempty) (hids : ∀ id ∈ ids, id ∈ model.domain) :
    model.checked.Steps state (state.commit ids) := by
  have hfilter : (model.domain.filter (· ∈ ids)).toFinset = ids := by
    ext id
    rw [List.mem_toFinset, List.mem_filter, decide_eq_true_eq]
    exact ⟨fun h => h.2, fun hid => ⟨hids id hid, hid⟩⟩
  have hsubset : model.domain.filter (· ∈ ids) ∈ model.datomSubsets := by
    refine mem_datomSubsets List.filter_sublist fun hnil => ?_
    obtain ⟨id, hid⟩ := hne
    rw [← hfilter, hnil] at hid
    exact absurd hid (Finset.notMem_empty id)
  let begun : SnapshotIsolationState δ :=
    { state with pendingWrite := some (model.domain.filter (· ∈ ids)) }
  have hstart : .startWrite (model.domain.filter (· ∈ ids)) ∈ model.checked.actions state := by
    refine List.mem_append_left _ (List.mem_append_left _ (List.mem_append_right _ ?_))
    rw [if_pos ⟨by rw [hpending]; rfl, hwrites, hepoch⟩]
    exact List.mem_map_of_mem hsubset
  have hbegun :
      model.nextState state (.startWrite (model.domain.filter (· ∈ ids))) = some begun := by
    simp only [nextState, hpending, Option.isSome_none, Bool.false_eq_true, if_false,
      if_neg (Nat.not_le_of_lt hwrites), if_neg (Nat.not_le_of_lt hepoch), begun, ge_iff_le]
  have hcommit : .commitWrite ∈ model.checked.actions begun :=
    List.mem_append_left _ (List.mem_append_right _ (List.mem_singleton.mpr rfl))
  have hcommitted : model.nextState begun .commitWrite = some (state.commit ids) := by
    simp only [nextState, begun, hfilter]
    rw [SnapshotIsolationState.commit, ← hpending]
  exact .step hstart hbegun
    (withinBoundary_iff.mpr ⟨h.epoch, h.readers, h.writes, h.ids, h.histories⟩)
    (.single hcommit hcommitted (withinBoundary_iff.mpr (h.commit hepoch hwrites hids)))

/-- Several writes are committed one after another. -/
theorem steps_commits {model : SnapshotIsolationModel δ} {state : SnapshotIsolationState δ}
    (h : model.Within state) (hpending : state.pendingWrite = none) {lists : List (Finset δ)}
    (hepoch : state.currentEpoch + lists.length ≤ model.maxEpochs)
    (hwrites : state.totalWrites + lists.length ≤ model.maxWrites)
    (hlists : ∀ ids ∈ lists, ids.Nonempty ∧ ∀ id ∈ ids, id ∈ model.domain) :
    model.checked.Steps state (lists.foldl SnapshotIsolationState.commit state) ∧
      model.Within (lists.foldl SnapshotIsolationState.commit state) := by
  induction lists generalizing state with
  | nil => exact ⟨.refl state, h⟩
  | cons ids rest ih =>
      rw [List.length_cons] at hepoch hwrites
      obtain ⟨hne, hids⟩ := hlists ids List.mem_cons_self
      have hfirst := steps_commit h hpending (by omega) (by omega) hne hids
      have hwithin := h.commit (by omega) (by omega) hids
      obtain ⟨hrest, hlast⟩ := ih hwithin hpending
        (by simp only [SnapshotIsolationState.commit]; omega)
        (by simp only [SnapshotIsolationState.commit]; omega)
        fun later hlater => hlists later (List.mem_cons_of_mem _ hlater)
      exact ⟨hfirst.trans hrest, hlast⟩

/-- A reader takes a snapshot. -/
theorem steps_startRead {model : SnapshotIsolationModel δ} {state next : SnapshotIsolationState δ}
    {observer : Nat} (hreaders : state.readerSnapshots.length < model.maxReaders)
    (hobserver : observer < model.maxReaders)
    (hnext : next = { state with
      readerSnapshots := state.readerSnapshots ++
        [(state.currentEpoch, visibleDatomsAtEpoch state.datomsByEpoch state.currentEpoch)]
      observerEpochHistory :=
        state.observerEpochHistory.modify observer (· ++ [state.currentEpoch]) })
    (hwithin : model.Within next) : model.checked.Steps state next := by
  have hstart : .startRead observer ∈ model.checked.actions state := by
    refine List.mem_append_left _ (List.mem_append_left _ (List.mem_append_left _ ?_))
    rw [if_pos hreaders]
    exact List.mem_map_of_mem (List.mem_range.mpr hobserver)
  refine .single hstart ?_ (withinBoundary_iff.mpr hwithin)
  · show model.nextState state (.startRead observer) = some next
    simp only [nextState, if_neg (Nat.not_le_of_lt hreaders),
      if_neg (Nat.not_le_of_lt hobserver), ge_iff_le, hnext]

end SnapshotIsolationModel

end Ferratomic.Checker
