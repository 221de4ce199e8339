import Mathlib.Data.Finset.Dedup
import Ferratomic.Lib.Checker

/-!
# The model of transaction atomicity

The checker's model of transactions that are committed as a whole: a commit logs the transaction and
applies it at the next epoch, a snapshot sees all transactions up to its epoch, and after a crash
the store is rebuilt from the log. The source explores three transactions of up to three datoms;
here the candidates and the bounds are parameters of the model, which keep its counters from
overflowing. The main theorem, `transactions_atomic`, says that the asserted properties hold at
every bound, that snapshots show whole transactions only, and that what is logged survives every
crash.
-/

namespace Ferratomic.Checker

open Lib

variable {δ : Type} [DecidableEq δ]

/-- A committed transaction. -/
structure CommittedTx (δ : Type) where
  epoch : Nat
  datomIds : Finset δ
deriving DecidableEq

/-- A snapshot and what it shows. -/
structure SnapshotView (δ : Type) where
  atEpoch : Nat
  visibleDatomIds : Finset δ

/-- Whether a transaction in progress is logged. A commit is one step, so none ever is. -/
inductive WalState where
  | notWritten
  | fsynced
deriving DecidableEq

/-- A transaction in progress. -/
structure PendingTx (δ : Type) where
  datomIds : Finset δ
  assignedEpoch : Nat
  walState : WalState

/-- The state of the model. -/
structure TxAtomicityState (δ : Type) where
  committedTxns : List (CommittedTx δ)
  snapshots : List (SnapshotView δ)
  currentEpoch : Nat
  pendingTx : Option (PendingTx δ)
  crashed : Bool
  durableWal : List (CommittedTx δ)

/-- The actions of the model. -/
inductive TxAction (δ : Type) where
  | startTx (datomIds : Finset δ)
  | commitTx
  | takeSnapshot
  | crashBeforeCommit
  | crashAfterCommit
  | recover

/-- The transactions that the model tries, and its bounds. -/
structure TxAtomicityModel (δ : Type) where
  datomDomain : List (Finset δ)
  maxTransactions : Nat
  maxEpoch : Nat
  maxSnapshots : Nat

/-- `visible_at_epoch`: the datoms of all transactions up to an epoch. -/
def visibleAtEpoch (committed : List (CommittedTx δ)) (snapEpoch : Nat) : Finset δ :=
  (committed.filter fun tx => decide (tx.epoch ≤ snapEpoch)).foldl
    (fun visible tx => visible ∪ tx.datomIds) ∅

namespace TxAtomicityState

/-- `apply_start_tx`. -/
def startTx (state : TxAtomicityState δ) (maxEpoch : Nat) (datomIds : Finset δ) :
    Option (TxAtomicityState δ) :=
  if state.pendingTx.isSome ∨ state.crashed ∨ state.currentEpoch > maxEpoch then none
  else some { state with pendingTx := some ⟨datomIds, state.currentEpoch, .notWritten⟩ }

/-- `apply_commit_tx`. -/
def commitTx (state : TxAtomicityState δ) : Option (TxAtomicityState δ) :=
  match state.pendingTx with
  | none => none
  | some pending =>
      if state.crashed then none
      else
        let committed := ⟨pending.assignedEpoch, pending.datomIds⟩
        some { state with
          pendingTx := none
          durableWal := state.durableWal ++ [committed]
          committedTxns := state.committedTxns ++ [committed]
          currentEpoch := state.currentEpoch + 1 }

/-- `apply_take_snapshot`. -/
def takeSnapshot (state : TxAtomicityState δ) : Option (TxAtomicityState δ) :=
  if state.crashed ∨ state.committedTxns.isEmpty then none
  else
    let snapEpoch := state.currentEpoch - 1
    some { state with
      snapshots := state.snapshots ++ [⟨snapEpoch, visibleAtEpoch state.committedTxns snapEpoch⟩] }

/-- `apply_crash`: what is in memory is lost. -/
def crash (state : TxAtomicityState δ) : TxAtomicityState δ :=
  { state with crashed := true, committedTxns := [], snapshots := [] }

/-- `apply_crash_before_commit`. -/
def crashBeforeCommit (state : TxAtomicityState δ) : Option (TxAtomicityState δ) :=
  match state.pendingTx with
  | none => none
  | some pending =>
      if pending.walState ≠ .notWritten then none else some (crash { state with pendingTx := none })

/-- `apply_crash_after_commit`. -/
def crashAfterCommit (state : TxAtomicityState δ) : Option (TxAtomicityState δ) :=
  if state.pendingTx.isSome ∨ state.crashed then none else some state.crash

/-- `apply_tx_recover`: the log is replayed. -/
def recover (state : TxAtomicityState δ) : Option (TxAtomicityState δ) :=
  if state.crashed = false then none
  else
    let maxEpoch := (state.durableWal.map (·.epoch)).max?.getD 0
    some { state with
      committedTxns := state.durableWal
      crashed := false
      currentEpoch := maxEpoch + 1 }

/-- `check_epoch_uniformity`, the property `inv_ferr_020_epoch_uniformity`. -/
def checkEpochUniformity (state : TxAtomicityState δ) (maxEpoch : Nat) : Bool :=
  (state.committedTxns.all fun tx => !(tx.epoch = 0 || tx.epoch > maxEpoch)) &&
    (state.committedTxns.map (·.epoch)).toFinset.card = state.committedTxns.length

/-- `check_all_or_nothing_visibility`, the property `inv_ferr_020_all_or_nothing_visibility`. -/
def checkAllOrNothingVisibility (state : TxAtomicityState δ) : Bool :=
  state.snapshots.all fun snap => state.committedTxns.all fun tx =>
    !(tx.epoch ≤ snap.atEpoch) || decide (∀ id ∈ tx.datomIds, id ∈ snap.visibleDatomIds)

/-- `check_crash_atomicity`, the property `inv_ferr_020_crash_atomicity`. -/
def checkCrashAtomicity (state : TxAtomicityState δ) : Bool :=
  if state.crashed then state.committedTxns.isEmpty
  else decide (state.committedTxns.toFinset = state.durableWal.toFinset)

end TxAtomicityState

namespace TxAtomicityModel

variable (model : TxAtomicityModel δ)

/-- `init_states`: nothing is committed. -/
def initStates : List (TxAtomicityState δ) :=
  [⟨[], [], 1, none, false, []⟩]

/-- `actions`: what the checker tries in a state. -/
def actions (state : TxAtomicityState δ) : List (TxAction δ) :=
  if state.crashed then [.recover]
  else
    (if state.pendingTx.isNone ∧ state.committedTxns.length < model.maxTransactions ∧
        state.currentEpoch ≤ model.maxEpoch then model.datomDomain.map .startTx else []) ++
    (if state.pendingTx.isSome then [.commitTx] else []) ++
    (if state.committedTxns.isEmpty = false ∧ state.snapshots.length < model.maxSnapshots then
      [.takeSnapshot] else []) ++
    (match state.pendingTx with
      | some pending => if pending.walState = .notWritten then [.crashBeforeCommit] else []
      | none => []) ++
    (if state.pendingTx.isNone ∧ state.committedTxns.isEmpty = false then [.crashAfterCommit]
      else [])

/-- `next_state`: the state after an action, if the action is enabled. -/
def nextState (state : TxAtomicityState δ) : TxAction δ → Option (TxAtomicityState δ)
  | .startTx datomIds => state.startTx model.maxEpoch datomIds
  | .commitTx => state.commitTx
  | .takeSnapshot => state.takeSnapshot
  | .crashBeforeCommit => state.crashBeforeCommit
  | .crashAfterCommit => state.crashAfterCommit
  | .recover => state.recover

/-- `within_boundary`: the states that the checker explores. -/
def withinBoundary (state : TxAtomicityState δ) : Bool :=
  decide (state.committedTxns.length ≤ model.maxTransactions) &&
    decide (state.snapshots.length ≤ model.maxSnapshots) &&
    decide (state.currentEpoch ≤ model.maxEpoch + 2) &&
    decide (state.durableWal.length ≤ model.maxTransactions)

/-- The model as the checker explores it. -/
def checked : Model (TxAtomicityState δ) (TxAction δ) :=
  ⟨initStates, model.actions, model.nextState, model.withinBoundary⟩

end TxAtomicityModel

/-- A datom is visible at an epoch when a transaction of at most that epoch has it. -/
theorem mem_visibleAtEpoch {committed : List (CommittedTx δ)} {snapEpoch : Nat} {id : δ} :
    id ∈ visibleAtEpoch committed snapEpoch ↔
      ∃ tx ∈ committed, tx.epoch ≤ snapEpoch ∧ id ∈ tx.datomIds := by
  have hfold : ∀ (txns : List (CommittedTx δ)) (visible : Finset δ),
      id ∈ txns.foldl (fun visible tx => visible ∪ tx.datomIds) visible ↔
        id ∈ visible ∨ ∃ tx ∈ txns, id ∈ tx.datomIds := by
    intro txns
    induction txns with
    | nil => simp
    | cons tx rest ih =>
        intro visible
        rw [List.foldl_cons, ih, Finset.mem_union]
        simp [or_assoc]
  rw [visibleAtEpoch, hfold]
  simp [and_assoc]

/-- A transaction committed later is not visible at an earlier epoch. -/
theorem visibleAtEpoch_append {committed : List (CommittedTx δ)} {snapEpoch : Nat}
    {tx : CommittedTx δ} (h : snapEpoch < tx.epoch) :
    visibleAtEpoch (committed ++ [tx]) snapEpoch = visibleAtEpoch committed snapEpoch := by
  have hlater : decide (tx.epoch ≤ snapEpoch) = false := decide_eq_false (Nat.not_le_of_lt h)
  rw [visibleAtEpoch, List.filter_append, List.filter_singleton, hlater]
  simp [visibleAtEpoch]

namespace TxAtomicityState

/-- The invariant of the model: the transactions of the log are numbered by their epochs, the store
holds them unless the process has crashed, and a snapshot shows all of them up to its epoch. -/
structure Inv (model : TxAtomicityModel δ) (state : TxAtomicityState δ) : Prop where
  numbered : state.durableWal.map (·.epoch) = List.range' 1 state.durableWal.length
  current : state.currentEpoch = state.durableWal.length + 1
  bounded : state.durableWal.length ≤ model.maxEpoch
  committed : state.committedTxns = if state.crashed then [] else state.durableWal
  pending : ∀ tx, state.pendingTx = some tx → state.crashed = false ∧
    tx.assignedEpoch = state.currentEpoch ∧ state.currentEpoch ≤ model.maxEpoch
  shown : ∀ snap ∈ state.snapshots, state.crashed = false ∧ snap.atEpoch < state.currentEpoch ∧
    snap.visibleDatomIds = visibleAtEpoch state.durableWal snap.atEpoch

variable {model : TxAtomicityModel δ} {state next : TxAtomicityState δ}

/-- The invariant holds of the initial states. -/
theorem Inv.init (model : TxAtomicityModel δ) :
    ∀ state ∈ (TxAtomicityModel.initStates : List (TxAtomicityState δ)), state.Inv model := by
  intro state hstate
  rw [List.mem_singleton.mp hstate]
  exact ⟨rfl, rfl, Nat.zero_le _, rfl, fun _ hpending => (by cases hpending),
    fun _ hsnap => absurd hsnap List.not_mem_nil⟩

/-- While the system runs, the committed transactions are the durable log. -/
theorem Inv.committed_of_running (h : state.Inv model) (hrunning : state.crashed = false) :
    state.committedTxns = state.durableWal := by
  rw [h.committed, hrunning]
  rfl

omit [DecidableEq δ] in
/-- A transaction starts only while the system runs, and only fills the pending slot. -/
theorem of_startTx {maxEpoch : Nat} {datomIds : Finset δ}
    (hnext : state.startTx maxEpoch datomIds = some next) :
    state.crashed = false ∧ state.currentEpoch ≤ maxEpoch ∧
      next = { state with pendingTx := some ⟨datomIds, state.currentEpoch, .notWritten⟩ } := by
  rw [TxAtomicityState.startTx] at hnext
  split at hnext
  case isTrue => cases hnext
  case isFalse hguard =>
      simp only [not_or, Bool.not_eq_true, gt_iff_lt, Nat.not_lt] at hguard
      exact ⟨hguard.2.1, hguard.2.2, (Option.some.inj hnext).symm⟩

/-- Starting a transaction keeps the invariant. -/
theorem Inv.startTx (h : state.Inv model) {datomIds : Finset δ}
    (hnext : state.startTx model.maxEpoch datomIds = some next) : next.Inv model := by
  obtain ⟨hrunning, hbound, rfl⟩ := of_startTx hnext
  refine ⟨h.numbered, h.current, h.bounded, h.committed, fun tx htx => ?_, h.shown⟩
  cases htx
  exact ⟨hrunning, rfl, hbound⟩

omit [DecidableEq δ] in
/-- A commit appends the pending transaction to the durable log and to the committed ones. -/
theorem of_commitTx (hnext : state.commitTx = some next) :
    ∃ pending, state.pendingTx = some pending ∧
      next = { state with
        pendingTx := none
        durableWal := state.durableWal ++ [⟨pending.assignedEpoch, pending.datomIds⟩]
        committedTxns := state.committedTxns ++ [⟨pending.assignedEpoch, pending.datomIds⟩]
        currentEpoch := state.currentEpoch + 1 } := by
  rw [TxAtomicityState.commitTx] at hnext
  split at hnext
  case h_1 => cases hnext
  case h_2 pending hpending =>
      split at hnext
      case isTrue => cases hnext
      case isFalse => exact ⟨pending, hpending, (Option.some.inj hnext).symm⟩

/-- A commit takes the next number. -/
theorem Inv.commitTx (h : state.Inv model) (hnext : state.commitTx = some next) :
    next.Inv model := by
  obtain ⟨pending, hpending, rfl⟩ := of_commitTx hnext
  obtain ⟨hrunning, hassigned, hbound⟩ := h.pending pending hpending
  have hcurrent := h.current
  refine ⟨?_, ?_, ?_, ?_, fun tx htx => (by cases htx), fun snap hsnap => ?_⟩
  · show (state.durableWal ++ [_]).map CommittedTx.epoch =
      List.range' 1 (state.durableWal ++ [_]).length
    rw [List.map_append, List.length_append, List.length_singleton, List.range'_1_concat,
      h.numbered, List.map_singleton, hassigned, hcurrent, Nat.add_comm 1]
  · show state.currentEpoch + 1 = (state.durableWal ++ [_]).length + 1
    rw [List.length_append, List.length_singleton, hcurrent]
  · show (state.durableWal ++ [_]).length ≤ model.maxEpoch
    rw [List.length_append, List.length_singleton]
    omega
  · show state.committedTxns ++ [_] =
      if state.crashed = true then [] else state.durableWal ++ [_]
    rw [h.committed_of_running hrunning, hrunning]
    rfl
  · obtain ⟨-, hbefore, hvisible⟩ := h.shown snap hsnap
    refine ⟨hrunning, Nat.lt_succ_of_lt hbefore, ?_⟩
    rw [hvisible]
    refine (visibleAtEpoch_append ?_).symm
    rw [hassigned]
    exact hbefore

/-- A snapshot is taken only while the system runs, and only adds itself. -/
theorem of_takeSnapshot (hnext : state.takeSnapshot = some next) :
    state.crashed = false ∧
      next = { state with
        snapshots := state.snapshots ++ [⟨state.currentEpoch - 1,
          visibleAtEpoch state.committedTxns (state.currentEpoch - 1)⟩] } := by
  rw [TxAtomicityState.takeSnapshot] at hnext
  split at hnext
  case isTrue => cases hnext
  case isFalse hguard =>
      rw [not_or, Bool.not_eq_true] at hguard
      exact ⟨hguard.1, (Option.some.inj hnext).symm⟩

/-- Taking a snapshot keeps the invariant. -/
theorem Inv.takeSnapshot (h : state.Inv model) (hnext : state.takeSnapshot = some next) :
    next.Inv model := by
  obtain ⟨hrunning, rfl⟩ := of_takeSnapshot hnext
  refine ⟨h.numbered, h.current, h.bounded, h.committed, h.pending, fun snap hsnap => ?_⟩
  rcases List.mem_append.mp hsnap with hold | hnew
  · exact h.shown snap hold
  · rw [List.mem_singleton.mp hnew, h.committed_of_running hrunning]
    have hcurrent := h.current
    refine ⟨hrunning, ?_, rfl⟩
    show state.currentEpoch - 1 < state.currentEpoch
    omega

/-- A crash keeps the log only. -/
theorem Inv.crash (h : state.Inv model) (hpending : state.pendingTx = none) :
    state.crash.Inv model := by
  refine ⟨h.numbered, h.current, h.bounded, rfl, fun tx htx => ?_,
    fun snap hsnap => absurd hsnap List.not_mem_nil⟩
  have hnone : state.pendingTx = some tx := htx
  rw [hpending] at hnone
  cases hnone

omit [DecidableEq δ] in
/-- A crash before the commit drops the pending transaction. -/
theorem of_crashBeforeCommit (hnext : state.crashBeforeCommit = some next) :
    next = crash { state with pendingTx := none } := by
  rw [TxAtomicityState.crashBeforeCommit] at hnext
  split at hnext
  case h_1 => cases hnext
  case h_2 =>
      split at hnext
      case isTrue => cases hnext
      case isFalse => exact (Option.some.inj hnext).symm

/-- A crash before the commit keeps the invariant. -/
theorem Inv.crashBeforeCommit (h : state.Inv model) (hnext : state.crashBeforeCommit = some next) :
    next.Inv model := by
  rw [of_crashBeforeCommit hnext]
  exact Inv.crash ⟨h.numbered, h.current, h.bounded, h.committed, fun tx htx => (by cases htx),
    h.shown⟩ rfl

omit [DecidableEq δ] in
/-- A crash after the commit finds no pending transaction. -/
theorem of_crashAfterCommit (hnext : state.crashAfterCommit = some next) :
    state.pendingTx = none ∧ next = state.crash := by
  rw [TxAtomicityState.crashAfterCommit] at hnext
  split at hnext
  case isTrue => cases hnext
  case isFalse hguard =>
      rw [not_or, Bool.not_eq_true, Option.isSome_eq_false_iff, Option.isNone_iff_eq_none] at hguard
      exact ⟨hguard.1, (Option.some.inj hnext).symm⟩

/-- A crash after the commit keeps the invariant. -/
theorem Inv.crashAfterCommit (h : state.Inv model) (hnext : state.crashAfterCommit = some next) :
    next.Inv model := by
  obtain ⟨hpending, rfl⟩ := of_crashAfterCommit hnext
  exact h.crash hpending

/-- The last epoch of the log is its length. -/
theorem Inv.max_epoch (h : state.Inv model) :
    (state.durableWal.map (·.epoch)).max?.getD 0 = state.durableWal.length := by
  rw [h.numbered]
  cases hlength : state.durableWal.length with
  | zero => rfl
  | succ count =>
      have hmax : (List.range' 1 (count + 1)).max? = some (count + 1) := by
        refine List.max?_eq_some_iff.mpr ⟨?_, fun epoch hepoch => ?_⟩
        · rw [List.mem_range'_1]
          omega
        · rw [List.mem_range'_1] at hepoch
          omega
      rw [hmax]
      rfl

omit [DecidableEq δ] in
/-- Recovery follows a crash and takes the committed transactions from the durable log. -/
theorem of_recover (hnext : state.recover = some next) :
    state.crashed = true ∧
      next = { state with
        committedTxns := state.durableWal
        crashed := false
        currentEpoch := (state.durableWal.map (·.epoch)).max?.getD 0 + 1 } := by
  rw [TxAtomicityState.recover] at hnext
  split at hnext
  case isTrue => cases hnext
  case isFalse hcrashed =>
      rw [Bool.not_eq_false] at hcrashed
      exact ⟨hcrashed, (Option.some.inj hnext).symm⟩

/-- Recovery keeps the invariant, and the system runs again with what was durable. -/
theorem Inv.recover (h : state.Inv model) (hnext : state.recover = some next) :
    next.Inv model ∧ next.crashed = false ∧ next.committedTxns = state.durableWal := by
  obtain ⟨hcrashed, rfl⟩ := of_recover hnext
  refine ⟨⟨h.numbered, ?_, h.bounded, rfl, fun tx htx => ?_, fun snap hsnap => ?_⟩, rfl, rfl⟩
  · exact congrArg (· + 1) h.max_epoch
  · have hrunning := (h.pending tx htx).1
    rw [hcrashed] at hrunning
    cases hrunning
  · have hrunning := (h.shown snap hsnap).1
    rw [hcrashed] at hrunning
    cases hrunning

/-- Every action keeps the invariant. -/
theorem Inv.nextState (h : state.Inv model) {action : TxAction δ}
    (hnext : model.nextState state action = some next) : next.Inv model := by
  cases action with
  | startTx datomIds => exact h.startTx hnext
  | commitTx => exact h.commitTx hnext
  | takeSnapshot => exact h.takeSnapshot hnext
  | crashBeforeCommit => exact h.crashBeforeCommit hnext
  | crashAfterCommit => exact h.crashAfterCommit hnext
  | recover => exact (h.recover hnext).1

/-- A state whose log goes on from that of another. -/
def Extends (state next : TxAtomicityState δ) : Prop :=
  state.durableWal <+: next.durableWal

omit [DecidableEq δ] in
/-- Every state extends itself. -/
theorem Extends.refl (state : TxAtomicityState δ) : state.Extends state :=
  List.prefix_refl _

omit [DecidableEq δ] in
/-- A state that extends an extension extends the first state. -/
theorem Extends.trans {first second third : TxAtomicityState δ} (h : first.Extends second)
    (hlater : second.Extends third) : first.Extends third :=
  List.IsPrefix.trans h hlater

/-- Every action extends the state it is taken in. -/
theorem extends_nextState {action : TxAction δ}
    (hnext : model.nextState state action = some next) : state.Extends next := by
  cases action with
  | startTx datomIds =>
      obtain ⟨-, -, rfl⟩ := of_startTx hnext
      exact List.prefix_refl _
  | commitTx =>
      obtain ⟨_, -, rfl⟩ := of_commitTx hnext
      exact List.prefix_append _ _
  | takeSnapshot =>
      obtain ⟨-, rfl⟩ := of_takeSnapshot hnext
      exact List.prefix_refl _
  | crashBeforeCommit =>
      rw [of_crashBeforeCommit hnext]
      exact List.prefix_refl _
  | crashAfterCommit =>
      obtain ⟨-, rfl⟩ := of_crashAfterCommit hnext
      exact List.prefix_refl _
  | recover =>
      obtain ⟨-, rfl⟩ := of_recover hnext
      exact List.prefix_refl _

/-- The epochs of what is committed are those up to their number, each once. -/
theorem Inv.epochUniformity (h : state.Inv model) :
    state.checkEpochUniformity model.maxEpoch = true := by
  rw [checkEpochUniformity]
  cases hcrashed : state.crashed with
  | true =>
      rw [h.committed, hcrashed]
      rfl
  | false =>
      rw [h.committed_of_running hcrashed, Bool.and_eq_true, decide_eq_true_eq, List.all_eq_true]
      have hepoch : ∀ tx ∈ state.durableWal, 1 ≤ tx.epoch ∧ tx.epoch ≤ model.maxEpoch := by
        intro tx htx
        have hmem := List.mem_map_of_mem (f := CommittedTx.epoch) htx
        have hbounded := h.bounded
        rw [h.numbered, List.mem_range'_1] at hmem
        omega
      constructor
      · intro tx htx
        obtain ⟨hpositive, hle⟩ := hepoch tx htx
        simp only [Bool.not_eq_true', Bool.or_eq_false_iff, decide_eq_false_iff_not]
        omega
      · rw [h.numbered, List.toFinset_card_of_nodup List.nodup_range', List.length_range']

/-- Under the invariant the checker's all-or-nothing property holds. -/
theorem Inv.allOrNothingVisibility (h : state.Inv model) :
    state.checkAllOrNothingVisibility = true := by
  refine List.all_eq_true.mpr fun snap hsnap => List.all_eq_true.mpr fun tx htx => ?_
  obtain ⟨hrunning, -, hvisible⟩ := h.shown snap hsnap
  rw [h.committed_of_running hrunning] at htx
  rw [Bool.or_eq_true, Bool.not_eq_true', decide_eq_false_iff_not, decide_eq_true_eq, hvisible]
  by_cases hupto : tx.epoch ≤ snap.atEpoch
  · exact .inr fun id hid => mem_visibleAtEpoch.mpr ⟨tx, htx, hupto, hid⟩
  · exact .inl hupto

/-- Under the invariant the checker's crash atomicity property holds. -/
theorem Inv.crashAtomicity (h : state.Inv model) : state.checkCrashAtomicity = true := by
  rw [checkCrashAtomicity]
  split
  case isTrue hcrashed =>
      rw [h.committed, if_pos hcrashed]
      rfl
  case isFalse hrunning =>
      rw [h.committed_of_running (Bool.not_eq_true _ ▸ hrunning)]
      exact decide_eq_true rfl

end TxAtomicityState

namespace TxAtomicityModel

open TxAtomicityState

variable {model : TxAtomicityModel δ} {state : TxAtomicityState δ}

omit [DecidableEq δ] in
/-- A state is within the boundary when its counters are within the bounds of the model. -/
theorem withinBoundary_iff : model.withinBoundary state = true ↔
    state.committedTxns.length ≤ model.maxTransactions ∧
      state.snapshots.length ≤ model.maxSnapshots ∧ state.currentEpoch ≤ model.maxEpoch + 2 ∧
      state.durableWal.length ≤ model.maxTransactions := by
  simp only [withinBoundary, Bool.and_eq_true, decide_eq_true_eq, and_assoc]

/-- The invariant holds in every state the checker visits. -/
theorem invariant_checked (model : TxAtomicityModel δ) :
    model.checked.Invariant (Inv model) :=
  ⟨Inv.init model, fun _ _ _ h _ hnext => h.nextState hnext⟩

/-- Every run from a state under the invariant ends in an extension of it. -/
theorem extends_steps (h : state.Inv model) {next : TxAtomicityState δ}
    (hsteps : model.checked.Steps state next) : state.Extends next :=
  model.invariant_checked.related Extends.refl (fun _ _ _ => Extends.trans)
    (fun _ _ _ _ _ hnext => extends_nextState hnext) h hsteps

/-- What holds of an explored state and of all states that follow it. -/
structure Atomic (model : TxAtomicityModel δ) (state : TxAtomicityState δ) : Prop where
  uniform : state.checkEpochUniformity model.maxEpoch = true
  visible : state.checkAllOrNothingVisibility = true
  crash : state.checkCrashAtomicity = true
  /-- A snapshot shows the transactions up to its epoch, and nothing else. -/
  whole : ∀ snap ∈ state.snapshots, ∀ id, id ∈ snap.visibleDatomIds ↔
    ∃ tx ∈ state.durableWal, tx.epoch ≤ snap.atEpoch ∧ id ∈ tx.datomIds
  /-- What is committed stays so in every later state that has recovered from all crashes. -/
  durable : ∀ next, model.checked.Steps state next → next.crashed = false →
    state.durableWal <+: next.committedTxns
  /-- A state can be reached in which the store holds the log and nothing else. -/
  recovers : ∃ next, model.checked.Steps state next ∧ next.crashed = false ∧
    next.committedTxns = state.durableWal

/-- A crashed process recovers what is logged. -/
theorem exists_recovered (h : state.Inv model)
    (hwithin : model.withinBoundary state = true) :
    ∃ next, model.checked.Steps state next ∧ next.crashed = false ∧
      next.committedTxns = state.durableWal := by
  cases hcrashed : state.crashed with
  | false => exact ⟨state, .refl state, hcrashed, h.committed_of_running hcrashed⟩
  | true =>
      have hrecover : model.nextState state .recover = some { state with
          committedTxns := state.durableWal
          crashed := false
          currentEpoch := state.durableWal.length + 1 } := by
        show state.recover = _
        rw [recover, if_neg (by rw [hcrashed]; exact Bool.noConfusion)]
        simp only [h.max_epoch]
      obtain ⟨hnext, hrunning, hcommitted⟩ := h.recover hrecover
      refine ⟨_, .single (?_ : .recover ∈ model.actions state) hrecover ?_, hrunning, hcommitted⟩
      · rw [actions, if_pos hcrashed]
        exact List.mem_singleton.mpr rfl
      · obtain ⟨-, hsnapshots, -, hdurable⟩ := withinBoundary_iff.mp hwithin
        exact withinBoundary_iff.mpr ⟨hdurable, hsnapshots,
          Nat.succ_le_succ (Nat.le_succ_of_le h.bounded), hdurable⟩

/-- The properties that the checker asserts hold at every bound, snapshots show whole transactions,
and what is committed survives every crash. -/
theorem transactions_atomic (model : TxAtomicityModel δ) : model.checked.Always model.Atomic := by
  intro state hreachable
  have h := model.invariant_checked.always state hreachable
  refine ⟨h.epochUniformity, h.allOrNothingVisibility, h.crashAtomicity, fun snap hsnap id => ?_,
    fun next hsteps hrunning => ?_, exists_recovered h hreachable.within⟩
  · rw [(h.shown snap hsnap).2.2]
    exact mem_visibleAtEpoch
  · rw [(model.invariant_checked.steps h hsteps).committed_of_running hrunning]
    exact extends_steps h hsteps

/-- A transaction is begun and committed. -/
theorem steps_commit {tx : CommittedTx δ} (hrunning : state.crashed = false)
    (hpending : state.pendingTx = none) (hdomain : tx.datomIds ∈ model.datomDomain)
    (hepoch : tx.epoch = state.currentEpoch) (hbound : state.currentEpoch ≤ model.maxEpoch)
    (hcommitted : state.committedTxns.length < model.maxTransactions)
    (hdurable : state.durableWal.length < model.maxTransactions)
    (hsnapshots : state.snapshots.length ≤ model.maxSnapshots) :
    model.checked.Steps state { state with
      committedTxns := state.committedTxns ++ [tx]
      currentEpoch := state.currentEpoch + 1
      durableWal := state.durableWal ++ [tx] } := by
  let begun : TxAtomicityState δ :=
    { state with pendingTx := some ⟨tx.datomIds, state.currentEpoch, .notWritten⟩ }
  have hstart : .startTx tx.datomIds ∈ model.actions state := by
    rw [actions, hrunning, hpending]
    refine List.mem_append_left _ (List.mem_append_left _ (List.mem_append_left _
      (List.mem_append_left _ ?_)))
    rw [if_pos ⟨rfl, hcommitted, hbound⟩]
    exact List.mem_map_of_mem hdomain
  have hbegun : model.nextState state (.startTx tx.datomIds) = some begun := by
    simp [nextState, startTx, hrunning, hpending, begun, Nat.not_lt_of_le hbound]
  have hcommit : .commitTx ∈ model.actions begun := by
    rw [actions, show begun.crashed = false from hrunning]
    exact List.mem_append_left _ (List.mem_append_left _ (List.mem_append_left _
      (List.mem_append_right _ (List.mem_singleton.mpr rfl))))
  have hended : model.nextState begun .commitTx = some { state with
      committedTxns := state.committedTxns ++ [tx]
      currentEpoch := state.currentEpoch + 1
      durableWal := state.durableWal ++ [tx] } := by
    simp [nextState, commitTx, begun, hrunning, ← hepoch, hpending]
  refine .step hstart hbegun (withinBoundary_iff.mpr
    ⟨hcommitted.le, hsnapshots, Nat.le_add_right_of_le hbound, hdurable.le⟩)
    (.single hcommit hended (withinBoundary_iff.mpr ⟨?_, hsnapshots, ?_, ?_⟩))
  · rw [List.length_append]
    exact hcommitted
  · exact Nat.succ_le_succ (Nat.le_succ_of_le hbound)
  · rw [List.length_append]
    exact hdurable

/-- A snapshot shows what is committed. -/
theorem steps_takeSnapshot (hrunning : state.crashed = false) (hne : state.committedTxns ≠ [])
    (hsnapshots : state.snapshots.length < model.maxSnapshots)
    (hwithin : model.withinBoundary state = true) :
    model.checked.Steps state { state with
      snapshots := state.snapshots ++ [⟨state.currentEpoch - 1,
        visibleAtEpoch state.committedTxns (state.currentEpoch - 1)⟩] } := by
  have hnonempty : state.committedTxns.isEmpty = false := List.isEmpty_eq_false_iff.mpr hne
  refine .single (?_ : .takeSnapshot ∈ model.actions state) ?_ ?_
  · rw [actions, hrunning]
    refine List.mem_append_left _ (List.mem_append_left _ (List.mem_append_right _ ?_))
    rw [if_pos ⟨hnonempty, hsnapshots⟩]
    exact List.mem_singleton.mpr rfl
  · show state.takeSnapshot = _
    simp [takeSnapshot, hrunning, hnonempty]
  · obtain ⟨hcommitted, -, hepoch, hdurable⟩ := withinBoundary_iff.mp hwithin
    refine withinBoundary_iff.mpr ⟨hcommitted, ?_, hepoch, hdurable⟩
    rw [List.length_append]
    exact hsnapshots

/-- A crash between two transactions, and the recovery from it. -/
theorem steps_crash (h : state.Inv model) (hwithin : model.withinBoundary state = true)
    (hrunning : state.crashed = false) (hpending : state.pendingTx = none)
    (hne : state.committedTxns ≠ []) :
    ∃ crashed, crashed.crashed = true ∧ model.checked.Steps state crashed ∧
      model.checked.Steps crashed { state with snapshots := [] } := by
  have hnonempty : state.committedTxns.isEmpty = false := List.isEmpty_eq_false_iff.mpr hne
  have hcrash : model.nextState state .crashAfterCommit = some state.crash := by
    show state.crashAfterCommit = _
    simp [crashAfterCommit, hrunning, hpending]
  have hrecover : model.nextState state.crash .recover = some { state with snapshots := [] } := by
    have hmax : (state.crash.durableWal.map (·.epoch)).max?.getD 0 = state.durableWal.length :=
      h.max_epoch
    show state.crash.recover = _
    rw [recover, if_neg (fun hstill => by cases hstill)]
    refine congrArg some ?_
    rw [hmax, ← h.current]
    simp only [crash, h.committed_of_running hrunning, hrunning]
  obtain ⟨hcommitted, -, hepoch, hdurable⟩ := withinBoundary_iff.mp hwithin
  refine ⟨state.crash, rfl, .single (?_ : .crashAfterCommit ∈ model.actions state) hcrash ?_,
    .single (?_ : .recover ∈ model.actions state.crash) hrecover ?_⟩
  · rw [actions, hrunning]
    refine List.mem_append_right _ ?_
    rw [if_pos ⟨by rw [hpending]; rfl, hnonempty⟩]
    exact List.mem_singleton.mpr rfl
  · exact withinBoundary_iff.mpr ⟨Nat.zero_le _, Nat.zero_le _, hepoch, hdurable⟩
  · exact List.mem_singleton.mpr rfl
  · exact withinBoundary_iff.mpr ⟨hcommitted, Nat.zero_le _, hepoch, hdurable⟩

end TxAtomicityModel

end Ferratomic.Checker
