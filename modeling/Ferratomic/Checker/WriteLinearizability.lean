import Ferratomic.Lib.Checker

/-!
# The model of write linearizability

The checker's model of writers that take turns under one lock: a writer is assigned the next epoch,
syncs its log entry and publishes, and a crash before or after the sync is followed by a recovery
that replays the log. The source explores three epochs and three writers; here the bounds are
parameters of the model, which keep its counters from overflowing, and an action on a writer that
does not exist, which the checker never tries, leads nowhere. The main theorem,
`writes_linearizable`, says that the asserted properties hold at every bound, that epochs follow the
order in which writers come and go, and that no write is lost once its log entry is synced.
-/

namespace Ferratomic.Checker

open Lib

/-- The lock of the writers. -/
inductive WriterLock where
  | free
  | held (id : Nat)
deriving DecidableEq

/-- Whether the system runs or has to recover. -/
inductive CrashMode where
  | normal
  | recovering
deriving DecidableEq

/-- How far a writer has come. -/
inductive PendingTxn where
  | waiting
  | epochAssigned (epoch : Nat)
  | fsynced (epoch : Nat)
  | done (epoch : Nat)
deriving DecidableEq

/-- The state of the model. -/
structure WriteLinState where
  committedEpochs : List Nat
  currentEpoch : Nat
  writerLock : WriterLock
  pendingTxns : List PendingTxn
  crashMode : CrashMode
  walFsyncedEpoch : Option Nat

/-- The actions of the model. -/
inductive WriteLinAction where
  | acquireLock (id : Nat)
  | assignEpoch (id : Nat)
  | fsyncWal (id : Nat)
  | releaseLock (id : Nat)
  | crashBeforeFsync
  | crashAfterFsync
  | recover

/-- The number of writers, and the bounds of the model. -/
structure WriteLinModel where
  writerCount : Nat
  maxEpoch : Nat
  maxPending : Nat

namespace WriteLinState

/-- `apply_acquire_lock`. -/
def acquireLock (state : WriteLinState) (id : Nat) : Option WriteLinState :=
  if state.writerLock ≠ .free ∨ state.crashMode ≠ .normal ∨ id ≥ state.pendingTxns.length ∨
      state.pendingTxns[id]? ≠ some .waiting then none
  else some { state with writerLock := .held id }

/-- `apply_assign_epoch`. -/
def assignEpoch (state : WriteLinState) (maxEpoch id : Nat) : Option WriteLinState :=
  if state.writerLock ≠ .held id ∨ state.pendingTxns[id]? ≠ some .waiting then none
  else if state.currentEpoch > maxEpoch then none
  else some { state with
    pendingTxns := state.pendingTxns.set id (.epochAssigned state.currentEpoch)
    currentEpoch := state.currentEpoch + 1 }

/-- `apply_fsync_wal`. -/
def fsyncWal (state : WriteLinState) (id : Nat) : Option WriteLinState :=
  match state.pendingTxns[id]? with
  | some (.epochAssigned epoch) => some { state with
      pendingTxns := state.pendingTxns.set id (.fsynced epoch)
      walFsyncedEpoch := some epoch }
  | _ => none

/-- `apply_release_lock`. -/
def releaseLock (state : WriteLinState) (id : Nat) : Option WriteLinState :=
  if state.writerLock ≠ .held id then none
  else
    match state.pendingTxns[id]? with
    | some (.fsynced epoch) => some { state with
        committedEpochs := state.committedEpochs ++ [epoch]
        pendingTxns := state.pendingTxns.set id (.done epoch)
        writerLock := .free
        walFsyncedEpoch := none }
    | _ => none

end WriteLinState

/-- What `reset_inflight_txns` does to one writer. -/
def PendingTxn.reset (resetFsynced : Bool) : PendingTxn → PendingTxn
  | .epochAssigned _ => .waiting
  | .fsynced epoch => if resetFsynced then .waiting else .fsynced epoch
  | txn => txn

/-- `reset_inflight_txns`: writers that lose their turn wait again. -/
def resetInflightTxns (pending : List PendingTxn) (resetFsynced : Bool) : List PendingTxn :=
  pending.map (.reset resetFsynced)

namespace WriteLinState

/-- `apply_crash_before_fsync`. -/
def crashBeforeFsync (state : WriteLinState) : WriteLinState :=
  { state with
    writerLock := .free
    walFsyncedEpoch := none
    pendingTxns := resetInflightTxns state.pendingTxns false
    crashMode := .recovering }

/-- `apply_crash_after_fsync`. -/
def crashAfterFsync (state : WriteLinState) : WriteLinState :=
  { state with
    writerLock := .free
    pendingTxns := resetInflightTxns state.pendingTxns true
    crashMode := .recovering }

/-- The last epoch committed, zero if there is none. -/
def lastCommitted (epochs : List Nat) : Nat :=
  epochs.getLast?.getD 0

/-- The epochs committed once the log is replayed. -/
def replayed (state : WriteLinState) : List Nat :=
  match state.walFsyncedEpoch with
  | some walEpoch =>
      if walEpoch > lastCommitted state.committedEpochs then state.committedEpochs ++ [walEpoch]
      else state.committedEpochs
  | none => state.committedEpochs

/-- `apply_recover`. -/
def recover (state : WriteLinState) : Option WriteLinState :=
  if state.crashMode ≠ .recovering then none
  else
    let last := lastCommitted state.replayed
    some { state with
      committedEpochs := state.replayed
      currentEpoch := if state.currentEpoch ≤ last then last + 1 else state.currentEpoch
      crashMode := .normal
      walFsyncedEpoch := none }

end WriteLinState

namespace WriteLinModel

variable (model : WriteLinModel)

/-- `init_states`: all writers wait. -/
def initStates : List WriteLinState :=
  [⟨[], 1, .free, List.replicate model.writerCount .waiting, .normal, none⟩]

/-- What the checker tries for one writer. -/
def writerActions (state : WriteLinState) (id : Nat) : List WriteLinAction :=
  match state.pendingTxns[id]? with
  | some .waiting => if state.writerLock = .free then [.acquireLock id] else []
  | some (.epochAssigned _) => [.fsyncWal id, .crashBeforeFsync]
  | some (.fsynced _) => [.releaseLock id, .crashAfterFsync]
  | _ => []

/-- `actions`: what the checker tries in a state. -/
def actions (state : WriteLinState) : List WriteLinAction :=
  match state.crashMode with
  | .recovering => [.recover]
  | .normal =>
      (List.range state.pendingTxns.length).flatMap (writerActions state) ++
        match state.writerLock with
        | .held holderId =>
            if state.pendingTxns[holderId]? = some .waiting then [.assignEpoch holderId] else []
        | .free => []

/-- `next_state`: the state after an action, if the action is enabled. -/
def nextState (state : WriteLinState) : WriteLinAction → Option WriteLinState
  | .acquireLock id => state.acquireLock id
  | .assignEpoch id => state.assignEpoch model.maxEpoch id
  | .fsyncWal id => state.fsyncWal id
  | .releaseLock id => state.releaseLock id
  | .crashBeforeFsync => some state.crashBeforeFsync
  | .crashAfterFsync => some state.crashAfterFsync
  | .recover => state.recover

/-- `within_boundary`: the states that the checker explores. -/
def withinBoundary (state : WriteLinState) : Bool :=
  decide (state.currentEpoch ≤ model.maxEpoch + 1) &&
    decide (state.committedEpochs.length ≤ model.maxEpoch) &&
    decide (state.pendingTxns.length ≤ model.maxPending)

/-- The model as the checker explores it. -/
def checked : Model WriteLinState WriteLinAction :=
  ⟨model.initStates, actions, model.nextState, model.withinBoundary⟩

end WriteLinModel

namespace WriteLinState

/-- `inv_ferr_007_epoch_strict_monotonicity`. -/
def epochStrictMonotonicity (state : WriteLinState) : Bool :=
  (state.committedEpochs.zip state.committedEpochs.tail).all fun pair => decide (pair.1 < pair.2)

/-- `inv_ferr_007_recovery_epoch_monotonicity`. -/
def recoveryEpochMonotonicity (state : WriteLinState) : Bool :=
  decide (state.currentEpoch > lastCommitted state.committedEpochs)

end WriteLinState

/-- The epoch that a writer was assigned, if it has not lost it again. -/
def PendingTxn.epoch? : PendingTxn → Option Nat
  | .waiting => none
  | .epochAssigned epoch => some epoch
  | .fsynced epoch => some epoch
  | .done epoch => some epoch

namespace WriteLinState

/-- The epoch of a writer. -/
def epochOf (state : WriteLinState) (id : Nat) : Option Nat :=
  state.pendingTxns[id]?.bind PendingTxn.epoch?

/-- A writer whose turn it is, with the epoch it was assigned. -/
def InFlight (state : WriteLinState) (id epoch : Nat) : Prop :=
  state.pendingTxns[id]? = some (.epochAssigned epoch) ∨
    state.pendingTxns[id]? = some (.fsynced epoch)

/-- An epoch that was assigned after all committed ones. -/
structure Fresh (committedEpochs : List Nat) (currentEpoch epoch : Nat) : Prop where
  positive : 0 < epoch
  above : ∀ committed ∈ committedEpochs, committed < epoch
  assigned : epoch < currentEpoch

/-- The invariant of the model. A writer in flight holds the lock, so there is at most one, and
outside of a crash the log has an entry to be committed only if that writer has synced it. -/
structure Inv (state : WriteLinState) : Prop where
  started : 0 < state.currentEpoch
  sorted : state.committedEpochs.Pairwise (· < ·)
  below : ∀ epoch ∈ state.committedEpochs, epoch < state.currentEpoch
  inFlight : ∀ id epoch, state.InFlight id epoch →
    state.writerLock = .held id ∧ Fresh state.committedEpochs state.currentEpoch epoch
  logged : ∀ epoch, state.walFsyncedEpoch = some epoch →
    Fresh state.committedEpochs state.currentEpoch epoch ∧
    (state.crashMode = .normal → ∃ id : Nat, state.pendingTxns[id]? = some (.fsynced epoch))
  done : ∀ id epoch : Nat, state.pendingTxns[id]? = some (.done epoch) →
    epoch ∈ state.committedEpochs
  distinct : ∀ id id' epoch : Nat, state.pendingTxns[id]? = some (.done epoch) →
    state.pendingTxns[id']? = some (.done epoch) → id = id'
  recovering : state.crashMode = .recovering → state.writerLock = .free

/-- Below a positive bound of all committed epochs lies the last of them. -/
theorem lastCommitted_lt {epochs : List Nat} {bound : Nat} (hbound : 0 < bound)
    (h : ∀ epoch ∈ epochs, epoch < bound) : lastCommitted epochs < bound := by
  rw [lastCommitted]
  cases hlast : epochs.getLast? with
  | none => exact hbound
  | some epoch => exact h epoch (List.mem_of_getLast? hlast)

/-- Under the invariant the current epoch is above the last committed one. -/
theorem Inv.lastCommitted_lt {state : WriteLinState} (h : state.Inv) :
    lastCommitted state.committedEpochs < state.currentEpoch :=
  WriteLinState.lastCommitted_lt h.started h.below

/-- Only one writer is in flight. -/
theorem Inv.inFlight_unique {state : WriteLinState} (h : state.Inv) {id id' epoch epoch' : Nat}
    (hid : state.InFlight id epoch) (hid' : state.InFlight id' epoch') : id = id' := by
  have hheld := (h.inFlight id epoch hid).1
  rw [(h.inFlight id' epoch' hid').1] at hheld
  exact (WriterLock.held.inj hheld).symm

/-- A log entry to be committed is that of the writer in flight. -/
theorem Inv.wal_eq_none {state : WriteLinState} (h : state.Inv) (hmode : state.crashMode = .normal)
    {id epoch : Nat} (hid : state.pendingTxns[id]? = some (.epochAssigned epoch)) :
    state.walFsyncedEpoch = none := by
  cases hwal : state.walFsyncedEpoch with
  | none => rfl
  | some logged =>
      obtain ⟨id', hid'⟩ := (h.logged logged hwal).2 hmode
      have hsame := h.inFlight_unique (.inl hid) (.inr hid')
      rw [hsame, hid'] at hid
      cases hid

/-- The writer whose turn it is was set; all others are as before. -/
theorem getElem?_set_cases {pending : List PendingTxn} {id id' : Nat} {txn txn' : PendingTxn}
    (h : (pending.set id txn)[id']? = some txn') :
    (id = id' ∧ txn = txn') ∨ (id ≠ id' ∧ pending[id']? = some txn') := by
  rw [List.getElem?_set] at h
  split at h
  case isTrue heq =>
      split at h
      · exact .inl ⟨heq, Option.some.inj h⟩
      · cases h
  case isFalse hne => exact .inr ⟨hne, h⟩

/-- A writer that has something else than what was set had it before. -/
theorem getElem?_of_set {pending : List PendingTxn} {id id' : Nat} {txn txn' : PendingTxn}
    (h : (pending.set id txn)[id']? = some txn') (hne : txn ≠ txn') :
    pending[id']? = some txn' := by
  rcases getElem?_set_cases h with ⟨-, heq⟩ | ⟨-, hbefore⟩
  · exact absurd heq hne
  · exact hbefore

/-- The step of one writer leaves that of another in flight. -/
theorem InFlight.of_set {state : WriteLinState} {pending : List PendingTxn} {id id' epoch : Nat}
    {txn : PendingTxn} (hpending : pending = state.pendingTxns.set id txn)
    (h : pending[id']? = some (.epochAssigned epoch) ∨ pending[id']? = some (.fsynced epoch)) :
    (id = id' ∧ (txn = .epochAssigned epoch ∨ txn = .fsynced epoch)) ∨
      (id ≠ id' ∧ state.InFlight id' epoch) := by
  subst hpending
  rcases h with hid | hid
  · rcases getElem?_set_cases hid with ⟨heq, htxn⟩ | ⟨hne, hid⟩
    · exact .inl ⟨heq, .inl htxn⟩
    · exact .inr ⟨hne, .inl hid⟩
  · rcases getElem?_set_cases hid with ⟨heq, htxn⟩ | ⟨hne, hid⟩
    · exact .inl ⟨heq, .inr htxn⟩
    · exact .inr ⟨hne, .inr hid⟩

/-- A free lock is taken. -/
theorem of_acquireLock {state next : WriteLinState} {id : Nat}
    (hnext : state.acquireLock id = some next) :
    state.writerLock = .free ∧ state.crashMode = .normal ∧
      next = { state with writerLock := .held id } := by
  rw [WriteLinState.acquireLock] at hnext
  split at hnext
  case isTrue => cases hnext
  case isFalse hguard =>
      rw [not_or, not_not, not_or, not_not] at hguard
      exact ⟨hguard.1, hguard.2.1, (Option.some.inj hnext).symm⟩

/-- Taking the lock keeps the invariant. -/
theorem Inv.acquireLock {state next : WriteLinState} (h : state.Inv) {id : Nat}
    (hnext : state.acquireLock id = some next) : next.Inv := by
  obtain ⟨hfree, hmode, rfl⟩ := of_acquireLock hnext
  refine ⟨h.started, h.sorted, h.below, fun id' epoch hid' => ?_, h.logged, h.done, h.distinct,
    fun hrecovering => ?_⟩
  · have hheld := (h.inFlight id' epoch hid').1
    rw [hfree] at hheld
    cases hheld
  · exact absurd (hmode.symm.trans hrecovering) CrashMode.noConfusion

/-- A fresh epoch stays fresh when the current epoch grows. -/
theorem Fresh.succ {committedEpochs : List Nat} {currentEpoch epoch : Nat}
    (h : Fresh committedEpochs currentEpoch epoch) :
    Fresh committedEpochs (currentEpoch + 1) epoch :=
  ⟨h.positive, h.above, Nat.lt_succ_of_lt h.assigned⟩

/-- The holder of the lock takes the current epoch. -/
theorem of_assignEpoch {state next : WriteLinState} {maxEpoch id : Nat}
    (hnext : state.assignEpoch maxEpoch id = some next) :
    state.writerLock = .held id ∧ state.pendingTxns[id]? = some .waiting ∧
      next = { state with
        pendingTxns := state.pendingTxns.set id (.epochAssigned state.currentEpoch)
        currentEpoch := state.currentEpoch + 1 } := by
  rw [WriteLinState.assignEpoch] at hnext
  split at hnext
  case isTrue => cases hnext
  case isFalse hguard =>
      rw [not_or, not_not, not_not] at hguard
      split at hnext
      case isTrue => cases hnext
      case isFalse => exact ⟨hguard.1, hguard.2, (Option.some.inj hnext).symm⟩

/-- Assigning an epoch keeps the invariant. -/
theorem Inv.assignEpoch {state next : WriteLinState} (h : state.Inv) {maxEpoch id : Nat}
    (hnext : state.assignEpoch maxEpoch id = some next) : next.Inv := by
  obtain ⟨hheld, hwaiting, rfl⟩ := of_assignEpoch hnext
  refine ⟨Nat.succ_pos _, h.sorted, fun epoch hepoch => Nat.lt_succ_of_lt (h.below epoch hepoch),
    fun id' epoch hid' => ?_, fun epoch hwal => ?_, fun id' epoch hid' => ?_,
    fun id' id'' epoch hid' hid'' => ?_, h.recovering⟩
  · rcases InFlight.of_set rfl hid' with ⟨rfl, htxn⟩ | ⟨hne, hid'⟩
    · have hepoch : epoch = state.currentEpoch := by
        rcases htxn with htxn | htxn
        · exact (PendingTxn.epochAssigned.inj htxn).symm
        · cases htxn
      subst hepoch
      exact ⟨hheld, h.started, h.below, Nat.lt_succ_self _⟩
    · obtain ⟨hheld', hfresh⟩ := h.inFlight id' epoch hid'
      exact ⟨hheld', hfresh.succ⟩
  · obtain ⟨hfresh, hsynced⟩ := h.logged epoch hwal
    refine ⟨hfresh.succ, fun hmode => ?_⟩
    obtain ⟨id', hid'⟩ := hsynced hmode
    have hne : id ≠ id' := by
      intro heq
      rw [heq, hid'] at hwaiting
      cases hwaiting
    exact ⟨id', by rw [List.getElem?_set_ne hne]; exact hid'⟩
  · exact h.done id' epoch (getElem?_of_set hid' PendingTxn.noConfusion)
  · exact h.distinct id' id'' epoch (getElem?_of_set hid' PendingTxn.noConfusion)
      (getElem?_of_set hid'' PendingTxn.noConfusion)

/-- A writer syncs the epoch it was assigned. -/
theorem of_fsyncWal {state next : WriteLinState} {id : Nat}
    (hnext : state.fsyncWal id = some next) :
    ∃ assigned, state.pendingTxns[id]? = some (.epochAssigned assigned) ∧
      next = { state with
        pendingTxns := state.pendingTxns.set id (.fsynced assigned)
        walFsyncedEpoch := some assigned } := by
  rw [WriteLinState.fsyncWal] at hnext
  split at hnext
  case h_1 assigned hassigned => exact ⟨assigned, hassigned, (Option.some.inj hnext).symm⟩
  case h_2 => cases hnext

/-- Syncing the log keeps the invariant. -/
theorem Inv.fsyncWal {state next : WriteLinState} (h : state.Inv) {id : Nat}
    (hnext : state.fsyncWal id = some next) : next.Inv := by
  obtain ⟨assigned, hassigned, rfl⟩ := of_fsyncWal hnext
  obtain ⟨hheld, hfresh⟩ := h.inFlight id assigned (.inl hassigned)
  refine ⟨h.started, h.sorted, h.below, fun id' epoch hid' => ?_, fun epoch hwal => ?_,
    fun id' epoch hid' => ?_, fun id' id'' epoch hid' hid'' => ?_, h.recovering⟩
  · rcases InFlight.of_set rfl hid' with ⟨rfl, htxn⟩ | ⟨-, hid'⟩
    · have hepoch : epoch = assigned := by
        rcases htxn with htxn | htxn
        · cases htxn
        · exact (PendingTxn.fsynced.inj htxn).symm
      subst hepoch
      exact ⟨hheld, hfresh⟩
    · exact h.inFlight id' epoch hid'
  · cases hwal
    refine ⟨hfresh, fun _ => ⟨id, ?_⟩⟩
    exact List.getElem?_set_self (List.getElem?_eq_some_iff.mp hassigned).1
  · exact h.done id' epoch (getElem?_of_set hid' PendingTxn.noConfusion)
  · exact h.distinct id' id'' epoch (getElem?_of_set hid' PendingTxn.noConfusion)
      (getElem?_of_set hid'' PendingTxn.noConfusion)

/-- The holder of the lock publishes the epoch it has synced. -/
theorem of_releaseLock {state next : WriteLinState} {id : Nat}
    (hnext : state.releaseLock id = some next) :
    ∃ published, state.pendingTxns[id]? = some (.fsynced published) ∧
      next = { state with
        committedEpochs := state.committedEpochs ++ [published]
        pendingTxns := state.pendingTxns.set id (.done published)
        writerLock := .free
        walFsyncedEpoch := none } := by
  rw [WriteLinState.releaseLock] at hnext
  split at hnext
  case isTrue => cases hnext
  case isFalse =>
      split at hnext
      case h_1 published hfsynced => exact ⟨published, hfsynced, (Option.some.inj hnext).symm⟩
      case h_2 => cases hnext

/-- A published epoch follows all committed ones, and no other writer is in flight. -/
theorem Inv.releaseLock {state next : WriteLinState} (h : state.Inv) {id : Nat}
    (hnext : state.releaseLock id = some next) : next.Inv := by
  obtain ⟨published, hfsynced, rfl⟩ := of_releaseLock hnext
  obtain ⟨hheld, hfresh⟩ := h.inFlight id published (.inr hfsynced)
  refine ⟨h.started, ?_, fun epoch hepoch => ?_, fun id' epoch hid' => ?_,
    fun epoch hwal => ?_, fun id' epoch hid' => ?_, fun id' id'' epoch hid' hid'' => ?_,
    fun _ => rfl⟩
  · refine List.pairwise_append.mpr ⟨h.sorted, List.pairwise_singleton _ _, ?_⟩
    intro committed hcommitted epoch hepoch
    rw [List.mem_singleton.mp hepoch]
    exact hfresh.above committed hcommitted
  · rcases List.mem_append.mp hepoch with hold | hnew
    · exact h.below epoch hold
    · rw [List.mem_singleton.mp hnew]
      exact hfresh.assigned
  · rcases InFlight.of_set rfl hid' with ⟨-, htxn⟩ | ⟨hne, hid'⟩
    · rcases htxn with htxn | htxn
      · cases htxn
      · cases htxn
    · exact absurd (h.inFlight_unique (.inr hfsynced) hid') hne
  · cases hwal
  · rcases getElem?_set_cases hid' with ⟨-, htxn⟩ | ⟨-, hid'⟩
    · cases htxn
      exact List.mem_append_right _ (List.mem_singleton.mpr rfl)
    · exact List.mem_append_left _ (h.done id' epoch hid')
  · rcases getElem?_set_cases hid' with ⟨heq', htxn'⟩ | ⟨-, hid'⟩
    · rcases getElem?_set_cases hid'' with ⟨heq'', -⟩ | ⟨-, hid''⟩
      · exact heq'.symm.trans heq''
      · cases htxn'
        exact absurd (hfresh.above _ (h.done id'' _ hid'')) (Nat.lt_irrefl _)
    · rcases getElem?_set_cases hid'' with ⟨-, htxn''⟩ | ⟨-, hid''⟩
      · cases htxn''
        exact absurd (hfresh.above _ (h.done id' _ hid')) (Nat.lt_irrefl _)
      · exact h.distinct id' id'' epoch hid' hid''

/-- What a reset leaves of a writer. -/
theorem of_resetInflightTxns {pending : List PendingTxn} {resetFsynced : Bool} {id : Nat}
    {txn : PendingTxn} (h : (resetInflightTxns pending resetFsynced)[id]? = some txn) :
    txn = .waiting ∨ pending[id]? = some txn ∧
      ∀ epoch, txn ≠ .epochAssigned epoch ∧ (resetFsynced = true → txn ≠ .fsynced epoch) := by
  rw [resetInflightTxns, List.getElem?_map] at h
  obtain ⟨before, hbefore, rfl⟩ := Option.map_eq_some_iff.mp h
  cases before with
  | waiting => exact .inl rfl
  | epochAssigned epoch => exact .inl rfl
  | fsynced epoch =>
      cases resetFsynced with
      | true => exact .inl rfl
      | false =>
          exact .inr ⟨hbefore, fun _ =>
            ⟨PendingTxn.noConfusion, fun htrue => absurd htrue Bool.false_ne_true⟩⟩
  | done epoch =>
      exact .inr ⟨hbefore, fun _ => ⟨PendingTxn.noConfusion, fun _ => PendingTxn.noConfusion⟩⟩

/-- A crash after which nobody is in flight. -/
theorem Inv.crash {state : WriteLinState} (h : state.Inv) {resetFsynced : Bool}
    (hreset : ∀ id epoch : Nat, state.pendingTxns[id]? = some (.fsynced epoch) →
      resetFsynced = true)
    {wal : Option Nat} (hwal : ∀ epoch, wal = some epoch → state.walFsyncedEpoch = some epoch) :
    Inv { state with
      writerLock := .free
      walFsyncedEpoch := wal
      pendingTxns := resetInflightTxns state.pendingTxns resetFsynced
      crashMode := .recovering } := by
  refine ⟨h.started, h.sorted, h.below, fun id epoch hid => ?_, fun epoch hepoch => ?_,
    fun id epoch hid => ?_, fun id id' epoch hid hid' => ?_, fun _ => rfl⟩
  · rcases hid with hid | hid
    · rcases of_resetInflightTxns hid with heq | ⟨-, hkept⟩
      · cases heq
      · exact absurd rfl (hkept epoch).1
    · rcases of_resetInflightTxns hid with heq | ⟨hbefore, hkept⟩
      · cases heq
      · exact absurd rfl ((hkept epoch).2 (hreset id epoch hbefore))
  · exact ⟨(h.logged epoch (hwal epoch hepoch)).1, fun hmode => by cases hmode⟩
  · rcases of_resetInflightTxns hid with heq | ⟨hbefore, -⟩
    · cases heq
    · exact h.done id epoch hbefore
  · rcases of_resetInflightTxns hid with heq | ⟨hbefore, -⟩
    · cases heq
    · rcases of_resetInflightTxns hid' with heq | ⟨hbefore', -⟩
      · cases heq
      · exact h.distinct id id' epoch hbefore hbefore'

/-- A log entry that was synced follows all committed epochs, so it is replayed. -/
theorem Inv.replayed {state : WriteLinState} (h : state.Inv) :
    state.replayed = state.committedEpochs ++ state.walFsyncedEpoch.toList := by
  rw [WriteLinState.replayed]
  cases hwal : state.walFsyncedEpoch with
  | none => exact (List.append_nil _).symm
  | some epoch =>
      have hfresh := (h.logged epoch hwal).1
      exact if_pos (WriteLinState.lastCommitted_lt hfresh.positive hfresh.above)

/-- Epochs that are replayed were assigned before. -/
theorem Inv.replayed_lt {state : WriteLinState} (h : state.Inv) :
    ∀ epoch ∈ state.replayed, epoch < state.currentEpoch := by
  intro epoch hepoch
  rw [h.replayed] at hepoch
  rcases List.mem_append.mp hepoch with hold | hnew
  · exact h.below epoch hold
  · exact (h.logged epoch (Option.mem_toList.mp hnew)).1.assigned

/-- A recovery commits what is replayed, and the epoch goes on from where it was. -/
theorem Inv.of_recover {state next : WriteLinState} (h : state.Inv)
    (hnext : state.recover = some next) :
    state.crashMode = .recovering ∧
      next = { state with
        committedEpochs := state.replayed
        crashMode := .normal
        walFsyncedEpoch := none } := by
  rw [WriteLinState.recover] at hnext
  split at hnext
  case isTrue => cases hnext
  case isFalse hguard =>
      have hepoch := WriteLinState.lastCommitted_lt h.started h.replayed_lt
      simp only [if_neg (Nat.not_le_of_lt hepoch)] at hnext
      exact ⟨not_not.mp hguard, (Option.some.inj hnext).symm⟩

/-- Recovery keeps the invariant. -/
theorem Inv.recover {state next : WriteLinState} (h : state.Inv)
    (hnext : state.recover = some next) : next.Inv := by
  obtain ⟨hmode, rfl⟩ := h.of_recover hnext
  have hfree := h.recovering hmode
  refine ⟨h.started, ?_, h.replayed_lt, fun id epoch hid => ?_, fun epoch hwal => ?_,
    fun id epoch hid => ?_, h.distinct, fun hmode => ?_⟩
  · show state.replayed.Pairwise (· < ·)
    rw [h.replayed]
    refine List.pairwise_append.mpr ⟨h.sorted, ?_, fun committed hcommitted epoch hnew => ?_⟩
    · cases state.walFsyncedEpoch with
      | none => exact .nil
      | some epoch => exact List.pairwise_singleton _ _
    · exact (h.logged epoch (Option.mem_toList.mp hnew)).1.above committed hcommitted
  · have hheld := (h.inFlight id epoch hid).1
    rw [hfree] at hheld
    cases hheld
  · cases hwal
  · show epoch ∈ state.replayed
    rw [h.replayed]
    exact List.mem_append_left _ (h.done id epoch hid)
  · cases hmode

/-- What steps do: committed epochs stay, a synced log entry stays until it is committed, and an
epoch that a writer gets is one that is still to come. -/
structure Advances (state next : WriteLinState) : Prop where
  committed : state.committedEpochs <+: next.committedEpochs
  epoch : state.currentEpoch ≤ next.currentEpoch
  logged : ∀ epoch, state.walFsyncedEpoch = some epoch →
    next.walFsyncedEpoch = some epoch ∨ epoch ∈ next.committedEpochs
  assigned : ∀ id epoch, next.epochOf id = some epoch →
    state.epochOf id = some epoch ∨ state.currentEpoch ≤ epoch

/-- Every state advances itself. -/
theorem Advances.refl (state : WriteLinState) : state.Advances state :=
  ⟨List.prefix_refl _, Nat.le_refl _, fun _ hwal => .inl hwal, fun _ _ hepoch => .inl hepoch⟩

/-- A state that advances an advance advances the first state. -/
theorem Advances.trans {first second third : WriteLinState} (h : first.Advances second)
    (hlater : second.Advances third) : first.Advances third := by
  refine ⟨h.committed.trans hlater.committed, Nat.le_trans h.epoch hlater.epoch,
    fun epoch hwal => ?_, fun id epoch hepoch => ?_⟩
  · rcases h.logged epoch hwal with hwal | hmem
    · exact hlater.logged epoch hwal
    · exact .inr (hlater.committed.subset hmem)
  · rcases hlater.assigned id epoch hepoch with hold | hnew
    · exact h.assigned id epoch hold
    · exact .inr (Nat.le_trans h.epoch hnew)

/-- The epochs of the writers after the step of one of them. -/
theorem epochOf_of_set {pending : List PendingTxn} {id id' epoch : Nat} {txn : PendingTxn}
    (h : (pending.set id txn)[id']?.bind PendingTxn.epoch? = some epoch) :
    txn.epoch? = some epoch ∧ id = id' ∨ pending[id']?.bind PendingTxn.epoch? = some epoch := by
  obtain ⟨txn', htxn', hepoch⟩ := Option.bind_eq_some_iff.mp h
  rcases getElem?_set_cases htxn' with ⟨heq, rfl⟩ | ⟨-, htxn'⟩
  · exact .inl ⟨hepoch, heq⟩
  · exact .inr (Option.bind_eq_some_iff.mpr ⟨txn', htxn', hepoch⟩)

/-- A transaction that has an epoch after the reset had it before. -/
theorem epochOf_of_resetInflightTxns {pending : List PendingTxn} {resetFsynced : Bool}
    {id epoch : Nat}
    (h : (resetInflightTxns pending resetFsynced)[id]?.bind PendingTxn.epoch? = some epoch) :
    pending[id]?.bind PendingTxn.epoch? = some epoch := by
  obtain ⟨txn, htxn, hepoch⟩ := Option.bind_eq_some_iff.mp h
  rcases of_resetInflightTxns htxn with rfl | ⟨hbefore, -⟩
  · cases hepoch
  · exact Option.bind_eq_some_iff.mpr ⟨txn, hbefore, hepoch⟩

/-- Taking the lock advances the state. -/
theorem advances_acquireLock {state next : WriteLinState} {id : Nat}
    (hnext : state.acquireLock id = some next) : state.Advances next := by
  obtain ⟨-, -, rfl⟩ := of_acquireLock hnext
  exact ⟨List.prefix_refl _, Nat.le_refl _, fun _ hwal => .inl hwal, fun _ _ h => .inl h⟩

/-- Assigning an epoch advances the state. -/
theorem advances_assignEpoch {state next : WriteLinState} {maxEpoch id : Nat}
    (hnext : state.assignEpoch maxEpoch id = some next) : state.Advances next := by
  obtain ⟨-, -, rfl⟩ := of_assignEpoch hnext
  refine ⟨List.prefix_refl _, Nat.le_succ _, fun _ hwal => .inl hwal, fun id' epoch h => ?_⟩
  rcases epochOf_of_set h with ⟨hepoch, -⟩ | hold
  · exact .inr (Nat.le_of_eq (Option.some.inj hepoch))
  · exact .inl hold

/-- The epoch that a writer syncs is the one it was assigned. -/
theorem Inv.advances_fsyncWal {state next : WriteLinState} (h : state.Inv)
    (hmode : state.crashMode = .normal) {id : Nat} (hnext : state.fsyncWal id = some next) :
    state.Advances next := by
  obtain ⟨assigned, hassigned, rfl⟩ := of_fsyncWal hnext
  refine ⟨List.prefix_refl _, Nat.le_refl _, fun epoch hwal => ?_, fun id' epoch hid' => ?_⟩
  · rw [h.wal_eq_none hmode hassigned] at hwal
    cases hwal
  · rcases epochOf_of_set hid' with ⟨hepoch, rfl⟩ | hold
    · exact .inl (Option.bind_eq_some_iff.mpr ⟨_, hassigned, hepoch⟩)
    · exact .inl hold

/-- Releasing the lock advances a state under the invariant. -/
theorem Inv.advances_releaseLock {state next : WriteLinState} (h : state.Inv)
    (hmode : state.crashMode = .normal) {id : Nat} (hnext : state.releaseLock id = some next) :
    state.Advances next := by
  obtain ⟨published, hfsynced, rfl⟩ := of_releaseLock hnext
  refine ⟨List.prefix_append _ _, Nat.le_refl _, fun epoch hwal => .inr ?_,
    fun id' epoch hid' => .inl ?_⟩
  · obtain ⟨id', hid'⟩ := (h.logged epoch hwal).2 hmode
    have hsame := h.inFlight_unique (.inr hid') (.inr hfsynced)
    rw [hsame, hfsynced] at hid'
    cases hid'
    exact List.mem_append_right _ (List.mem_singleton.mpr rfl)
  · rcases epochOf_of_set hid' with ⟨hepoch, rfl⟩ | hold
    · exact Option.bind_eq_some_iff.mpr ⟨_, hfsynced, hepoch⟩
    · exact hold

/-- Recovery advances a state under the invariant. -/
theorem Inv.advances_recover {state next : WriteLinState} (h : state.Inv)
    (hnext : state.recover = some next) : state.Advances next := by
  obtain ⟨-, rfl⟩ := h.of_recover hnext
  refine ⟨?_, Nat.le_refl _, fun epoch hwal => .inr ?_, fun _ _ hepoch => .inl hepoch⟩
  · show state.committedEpochs <+: state.replayed
    rw [h.replayed]
    exact List.prefix_append _ _
  · show epoch ∈ state.replayed
    rw [h.replayed, hwal]
    exact List.mem_append_right _ (List.mem_singleton.mpr rfl)

/-- A crash loses no log entry that was synced: before the sync there is none. -/
theorem advances_crash {state : WriteLinState} {resetFsynced : Bool} {wal : Option Nat}
    (hwal : wal = state.walFsyncedEpoch) :
    state.Advances { state with
      writerLock := .free
      walFsyncedEpoch := wal
      pendingTxns := resetInflightTxns state.pendingTxns resetFsynced
      crashMode := .recovering } := by
  exact ⟨List.prefix_refl _, Nat.le_refl _, fun epoch hepoch => .inl (hwal.trans hepoch),
    fun id epoch hid => .inl (epochOf_of_resetInflightTxns hid)⟩

end WriteLinState

namespace WriteLinModel

open WriteLinState

/-- While recovering, recovery is the only action offered. -/
theorem eq_recover_of_mem_actions {state : WriteLinState} {action : WriteLinAction}
    (hmode : state.crashMode = .recovering) (h : action ∈ actions state) : action = .recover := by
  rw [actions, hmode] at h
  exact List.mem_singleton.mp h

/-- Every action but recovery is offered in normal operation only. -/
theorem normal_of_mem_actions {state : WriteLinState} {action : WriteLinAction}
    (h : action ∈ actions state) (hne : action ≠ .recover) : state.crashMode = .normal := by
  cases hmode : state.crashMode with
  | normal => rfl
  | recovering => exact absurd (eq_recover_of_mem_actions hmode h) hne

/-- The checker tries a crash before a sync only where a writer is about to sync. -/
theorem exists_assigned_of_crashBeforeFsync {state : WriteLinState}
    (h : .crashBeforeFsync ∈ actions state) :
    ∃ id epoch : Nat, state.pendingTxns[id]? = some (.epochAssigned epoch) := by
  rw [actions, normal_of_mem_actions h WriteLinAction.noConfusion] at h
  rcases List.mem_append.mp h with hwriter | hassign
  · obtain ⟨id, -, hwriter⟩ := List.mem_flatMap.mp hwriter
    rw [writerActions] at hwriter
    split at hwriter
    case h_1 =>
        split at hwriter
        · cases List.mem_singleton.mp hwriter
        · exact absurd hwriter List.not_mem_nil
    case h_2 epoch hassigned => exact ⟨id, epoch, hassigned⟩
    case h_3 => simp at hwriter
    case h_4 => exact absurd hwriter List.not_mem_nil
  · split at hassign
    · split at hassign
      · cases List.mem_singleton.mp hassign
      · exact absurd hassign List.not_mem_nil
    · exact absurd hassign List.not_mem_nil

/-- Before a sync, the writer that holds the lock has not synced, so nobody has. -/
theorem not_fsynced_of_crashBeforeFsync {state : WriteLinState} (h : state.Inv)
    (haction : .crashBeforeFsync ∈ actions state) :
    state.walFsyncedEpoch = none ∧
      ∀ id epoch : Nat, state.pendingTxns[id]? ≠ some (.fsynced epoch) := by
  obtain ⟨id, assigned, hassigned⟩ := exists_assigned_of_crashBeforeFsync haction
  refine ⟨h.wal_eq_none (normal_of_mem_actions haction WriteLinAction.noConfusion) hassigned,
    fun id' epoch hid' => ?_⟩
  have hsame := h.inFlight_unique (.inl hassigned) (.inr hid')
  rw [hsame, hid'] at hassigned
  cases hassigned

/-- The invariant holds in every state the checker visits. -/
theorem invariant_checked (model : WriteLinModel) : model.checked.Invariant Inv := by
  refine ⟨fun state hstate => ?_, fun state action next h haction hnext => ?_⟩
  · rw [List.mem_singleton.mp hstate]
    have hwaiting : ∀ {id : Nat} {txn : PendingTxn},
        (List.replicate model.writerCount PendingTxn.waiting)[id]? = some txn → txn = .waiting :=
      fun hid => List.eq_of_mem_replicate (List.mem_of_getElem? hid)
    refine ⟨Nat.one_pos, .nil, fun epoch hepoch => absurd hepoch List.not_mem_nil,
      fun id epoch hid => ?_, fun epoch hwal => (by cases hwal), fun id epoch hid => ?_,
      fun id id' epoch hid _ => ?_, fun _ => rfl⟩
    · rcases hid with hid | hid
      · cases hwaiting hid
      · cases hwaiting hid
    · cases hwaiting hid
    · cases hwaiting hid
  · cases action with
    | acquireLock id => exact h.acquireLock hnext
    | assignEpoch id => exact h.assignEpoch hnext
    | fsyncWal id => exact h.fsyncWal hnext
    | releaseLock id => exact h.releaseLock hnext
    | crashBeforeFsync =>
        cases hnext
        exact h.crash (fun id epoch hid =>
          absurd hid ((not_fsynced_of_crashBeforeFsync h haction).2 id epoch))
          fun _ hwal => (by cases hwal)
    | crashAfterFsync =>
        cases hnext
        exact h.crash (fun _ _ _ => rfl) fun _ hwal => hwal
    | recover => exact h.recover hnext

/-- Every step goes on from where the system was, also a crash or a recovery. -/
theorem advances_nextState {model : WriteLinModel} {state next : WriteLinState}
    {action : WriteLinAction} (h : state.Inv) (haction : action ∈ actions state)
    (hnext : model.nextState state action = some next) : state.Advances next := by
  cases action with
  | acquireLock id => exact advances_acquireLock hnext
  | assignEpoch id => exact advances_assignEpoch hnext
  | fsyncWal id =>
      exact h.advances_fsyncWal (normal_of_mem_actions haction WriteLinAction.noConfusion) hnext
  | releaseLock id =>
      exact h.advances_releaseLock (normal_of_mem_actions haction WriteLinAction.noConfusion) hnext
  | crashBeforeFsync =>
      cases hnext
      exact advances_crash (not_fsynced_of_crashBeforeFsync h haction).1.symm
  | crashAfterFsync =>
      cases hnext
      exact advances_crash rfl
  | recover => exact h.advances_recover hnext

/-- Every run from a state under the invariant ends in an advance of it. -/
theorem advances_steps {model : WriteLinModel} {state next : WriteLinState} (h : state.Inv)
    (hsteps : model.checked.Steps state next) : state.Advances next :=
  model.invariant_checked.related Advances.refl (fun _ _ _ => Advances.trans)
    (fun _ _ _ h haction hnext => advances_nextState h haction hnext) h hsteps

/-- What holds of an explored state and of all states that follow it. -/
structure Linearizable (model : WriteLinModel) (state : WriteLinState) : Prop where
  strict : state.epochStrictMonotonicity = true
  recovery : state.recoveryEpochMonotonicity = true
  /-- Every published write has an epoch of its own that is committed. -/
  published : ∀ id epoch : Nat, state.pendingTxns[id]? = some (.done epoch) →
    epoch ∈ state.committedEpochs ∧
      ∀ id' : Nat, state.pendingTxns[id']? = some (.done epoch) → id = id'
  /-- What is committed stays so, whatever crashes. -/
  kept : ∀ next, model.checked.Steps state next → state.committedEpochs <+: next.committedEpochs
  /-- What is synced stays in the log until it is committed. -/
  durable : ∀ next, model.checked.Steps state next → ∀ epoch, state.walFsyncedEpoch = some epoch →
    next.walFsyncedEpoch = some epoch ∨ epoch ∈ next.committedEpochs
  /-- A write that begins when another is published gets a later epoch. -/
  ordered : ∀ next, model.checked.Steps state next → ∀ id id' epoch epoch' : Nat,
    state.pendingTxns[id]? = some (.done epoch) → state.pendingTxns[id']? = some .waiting →
    next.pendingTxns[id']? = some (.done epoch') → epoch < epoch'

/-- Under the invariant the checker's properties hold. -/
theorem linearizable_of_inv {model : WriteLinModel} {state : WriteLinState} (h : state.Inv) :
    model.Linearizable state := by
  refine ⟨all_windows_of_pairwise h.sorted, decide_eq_true h.lastCommitted_lt,
    fun id epoch hid => ⟨h.done id epoch hid, fun id' hid' => h.distinct id id' epoch hid hid'⟩,
    fun next hsteps => (advances_steps h hsteps).committed,
    fun next hsteps => (advances_steps h hsteps).logged,
    fun next hsteps id id' epoch epoch' hid hwaiting hid' => ?_⟩
  have hbelow := h.below epoch (h.done id epoch hid)
  have hepoch : next.epochOf id' = some epoch' := by
    rw [epochOf, hid']
    rfl
  rcases (advances_steps h hsteps).assigned id' epoch' hepoch with hold | hnew
  · rw [epochOf, hwaiting] at hold
    cases hold
  · exact Nat.lt_of_lt_of_le hbelow hnew

/-- No writer comes or goes. -/
theorem length_nextState {model : WriteLinModel} {state next : WriteLinState}
    {action : WriteLinAction} (hnext : model.nextState state action = some next) :
    next.pendingTxns.length = state.pendingTxns.length := by
  cases action with
  | acquireLock id =>
      obtain ⟨-, -, rfl⟩ := of_acquireLock hnext
      rfl
  | assignEpoch id =>
      obtain ⟨-, -, rfl⟩ := of_assignEpoch hnext
      exact List.length_set
  | fsyncWal id =>
      obtain ⟨_, -, rfl⟩ := of_fsyncWal hnext
      exact List.length_set
  | releaseLock id =>
      obtain ⟨_, -, rfl⟩ := of_releaseLock hnext
      exact List.length_set
  | crashBeforeFsync =>
      cases hnext
      exact List.length_map _
  | crashAfterFsync =>
      cases hnext
      exact List.length_map _
  | recover =>
      simp only [nextState, recover] at hnext
      split at hnext
      · cases hnext
      · cases hnext
        rfl

/-- A state the checker visits has one pending slot for each writer. -/
theorem length_pendingTxns {model : WriteLinModel} {state : WriteLinState}
    (h : model.checked.Reachable state) : state.pendingTxns.length = model.writerCount := by
  have hinvariant : model.checked.Invariant fun state =>
      state.pendingTxns.length = model.writerCount := by
    refine ⟨fun state hstate => ?_, fun state action next h _ hnext => ?_⟩
    · rw [List.mem_singleton.mp hstate]
      exact List.length_replicate
    · exact (length_nextState hnext).trans h
  exact hinvariant.always state h

/-- Without writers nothing happens. -/
theorem eq_of_no_writers {model : WriteLinModel} (hwriters : model.writerCount = 0)
    {state : WriteLinState} (h : model.checked.Reachable state) :
    state = ⟨[], 1, .free, [], .normal, none⟩ := by
  have hinvariant : model.checked.Invariant fun state =>
      state = ⟨[], 1, .free, [], .normal, none⟩ := by
    refine ⟨fun state hstate => ?_, fun state action next h haction _ => ?_⟩
    · rw [List.mem_singleton.mp hstate, hwriters]
      rfl
    · subst h
      exact absurd haction List.not_mem_nil
  exact hinvariant.always state h

/-- The first commit stays within the bounds. -/
theorem withinBoundary_early {model : WriteLinModel} (hepoch : 0 < model.maxEpoch)
    (hpending : model.writerCount ≤ model.maxPending) {state : WriteLinState}
    (hcurrent : state.currentEpoch ≤ 2) (hcommitted : state.committedEpochs.length ≤ 1)
    (hlength : state.pendingTxns.length = model.writerCount) :
    model.checked.withinBoundary state = true := by
  show model.withinBoundary state = true
  simp only [withinBoundary, Bool.and_eq_true, decide_eq_true_eq]
  omega

/-- A first writer takes its turn. -/
theorem exists_committed {model : WriteLinModel} (hwriters : 0 < model.writerCount)
    (hpending : model.writerCount ≤ model.maxPending) (hepoch : 0 < model.maxEpoch) :
    ∃ state, model.checked.Reachable state ∧ state.committedEpochs ≠ [] := by
  obtain ⟨others, hothers⟩ := Nat.exists_eq_add_of_lt hwriters
  rw [Nat.zero_add] at hothers
  let rest := List.replicate others PendingTxn.waiting
  have hlength : ∀ txn : PendingTxn, (txn :: rest).length = model.writerCount := by
    intro txn
    rw [hothers, List.length_cons, List.length_replicate]
  have hwriter : ∀ {state : WriteLinState} {txn : PendingTxn} {action : WriteLinAction},
      state.crashMode = .normal → state.pendingTxns = txn :: rest →
      action ∈ writerActions state 0 → action ∈ model.checked.actions state := by
    intro state txn action hmode htxns haction
    show action ∈ actions state
    rw [actions, hmode]
    refine List.mem_append_left _ (List.mem_flatMap.mpr ⟨0, List.mem_range.mpr ?_, haction⟩)
    rw [htxns]
    exact Nat.succ_pos _
  have hinit : model.checked.Reachable ⟨[], 1, .free, .waiting :: rest, .normal, none⟩ := by
    refine .init ?_ (withinBoundary_early hepoch hpending (Nat.le_succ 1) (Nat.zero_le 1)
      (hlength _))
    refine List.mem_singleton.mpr ?_
    rw [hothers]
    rfl
  have hacquired : model.checked.Reachable ⟨[], 1, .held 0, .waiting :: rest, .normal, none⟩ :=
    hinit.after (.acquireLock 0) (hwriter rfl rfl (List.mem_singleton.mpr rfl)) rfl
      (withinBoundary_early hepoch hpending (Nat.le_succ 1) (Nat.zero_le 1) (hlength _))
  have hassign : model.nextState ⟨[], 1, .held 0, .waiting :: rest, .normal, none⟩
      (.assignEpoch 0) = some ⟨[], 2, .held 0, .epochAssigned 1 :: rest, .normal, none⟩ := by
    show assignEpoch _ _ _ = _
    rw [assignEpoch, if_neg (by simp), if_neg (Nat.not_lt_of_le hepoch)]
    rfl
  have hassigned : model.checked.Reachable
      ⟨[], 2, .held 0, .epochAssigned 1 :: rest, .normal, none⟩ :=
    hacquired.after (.assignEpoch 0) (List.mem_append_right _ (List.mem_singleton.mpr rfl)) hassign
      (withinBoundary_early hepoch hpending (Nat.le_refl 2) (Nat.zero_le 1) (hlength _))
  have hfsynced : model.checked.Reachable
      ⟨[], 2, .held 0, .fsynced 1 :: rest, .normal, some 1⟩ :=
    hassigned.after (.fsyncWal 0) (hwriter rfl rfl List.mem_cons_self) rfl
      (withinBoundary_early hepoch hpending (Nat.le_refl 2) (Nat.zero_le 1) (hlength _))
  have hreleased : model.checked.Reachable ⟨[1], 2, .free, .done 1 :: rest, .normal, none⟩ :=
    hfsynced.after (.releaseLock 0) (hwriter rfl rfl List.mem_cons_self) rfl
      (withinBoundary_early hepoch hpending (Nat.le_refl 2) (Nat.le_refl 1) (hlength _))
  exact ⟨_, hreleased, List.cons_ne_nil _ _⟩

/-- The properties that the checker asserts hold at every bound, and so does linearizability; a
commit is reached unless the bounds exclude every write. -/
theorem writes_linearizable (model : WriteLinModel) :
    model.checked.Always model.Linearizable ∧
      ((∃ state, model.checked.Reachable state ∧ state.committedEpochs ≠ []) ↔
        0 < model.writerCount ∧ model.writerCount ≤ model.maxPending ∧ 0 < model.maxEpoch) := by
  refine ⟨model.invariant_checked.always.imp fun _ => linearizable_of_inv, ?_, fun hbounds =>
    exists_committed hbounds.1 hbounds.2.1 hbounds.2.2⟩
  intro hcommit
  obtain ⟨state, hreachable, hne⟩ := hcommit
  have hwithin : model.withinBoundary state = true := hreachable.within
  simp only [withinBoundary, Bool.and_eq_true, decide_eq_true_eq] at hwithin
  have hlength := length_pendingTxns hreachable
  have hcommitted := List.length_pos_iff.mpr hne
  refine ⟨Nat.pos_of_ne_zero fun hwriters => ?_, by omega, by omega⟩
  rw [eq_of_no_writers hwriters hreachable] at hne
  exact hne rfl

end WriteLinModel

end Ferratomic.Checker
