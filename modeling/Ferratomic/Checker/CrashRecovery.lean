import Mathlib.Data.Finset.Card
import Ferratomic.Lib.Checker

/-!
# The model of crash recovery

The checker's model of one store with a log: a transaction of one datom is written, synced and
committed, and the process may crash between any two of these steps and then recover. The source
explores datoms of a few seeds; here the domain is any list of datoms. The main theorem,
`crashes_recovered`, says that the asserted properties hold at every bound, that nothing synced is
ever lost, and that from every explored state a recovery restores what the log holds.
-/

namespace Ferratomic.Checker

open Lib

variable {δ : Type} [DecidableEq δ]

/-- The phase of the lifecycle. The phase of a recovery in progress is never entered. -/
inductive Phase (δ : Type) where
  | idle
  | writing (pending : Finset δ)
  | fsynced (pending : Finset δ)
  | crashed (fsynced : Bool) (pending : Finset δ)
  | recovering
  | recovered

/-- The state of the model. -/
structure CrashRecoveryState (δ : Type) where
  phase : Phase δ
  committedStore : Finset δ
  recoveredStore : Finset δ
  wal : Finset δ
  indexSet : Finset δ
  committedCount : Nat

/-- The actions of the model. -/
inductive CrashRecoveryAction (δ : Type) where
  | beginWrite (datom : δ)
  | fsyncWal
  | commit
  | crashBeforeFsync
  | crashAfterFsync
  | crashIdle
  | recover

/-- The datoms that the model writes and how many it commits. -/
structure CrashRecoveryModel (δ : Type) where
  datoms : List δ
  maxCommits : Nat

/-- `apply_recovery`: the log is replayed on what is committed. -/
def CrashRecoveryState.recovery (state : CrashRecoveryState δ) (fsynced : Bool)
    (pending : Finset δ) : CrashRecoveryState δ :=
  let recovered := if fsynced then state.committedStore ∪ pending else state.committedStore
  { state with
    phase := .recovered
    committedStore := recovered
    recoveredStore := recovered
    indexSet := recovered
    committedCount := if fsynced then state.committedCount + 1 else state.committedCount }

namespace CrashRecoveryModel

variable (model : CrashRecoveryModel δ)

/-- `init_states`: nothing is written. -/
def initStates : List (CrashRecoveryState δ) :=
  [⟨.idle, ∅, ∅, ∅, ∅, 0⟩]

/-- `generate_write_actions`: a datom that is not committed is written. -/
def generateWriteActions (state : CrashRecoveryState δ) : List (CrashRecoveryAction δ) :=
  if state.committedCount < model.maxCommits then
    (model.datoms.filter fun datom => datom ∉ state.committedStore).map .beginWrite
  else []

/-- `actions`: what the checker tries in a state. -/
def actions (state : CrashRecoveryState δ) : List (CrashRecoveryAction δ) :=
  match state.phase with
  | .idle => model.generateWriteActions state ++ [.crashIdle]
  | .writing _ => [.fsyncWal, .crashBeforeFsync]
  | .fsynced _ => [.commit, .crashAfterFsync]
  | .crashed _ _ => [.recover]
  | .recovering => []
  | .recovered => model.generateWriteActions state ++ [.crashIdle]

/-- `next_state`: the state after an action, if the action is enabled. -/
def nextState (state : CrashRecoveryState δ) :
    CrashRecoveryAction δ → Option (CrashRecoveryState δ)
  | .beginWrite datom =>
      match state.phase with
      | .idle => some { state with phase := .writing {datom} }
      | .recovered => some { state with phase := .writing {datom} }
      | _ => none
  | .fsyncWal =>
      match state.phase with
      | .writing pending => some { state with
          wal := state.wal ∪ pending
          phase := .fsynced pending }
      | _ => none
  | .commit =>
      match state.phase with
      | .fsynced pending => some { state with
          committedStore := state.committedStore ∪ pending
          indexSet := state.committedStore ∪ pending
          committedCount := state.committedCount + 1
          phase := .idle }
      | _ => none
  | .crashAfterFsync =>
      match state.phase with
      | .fsynced pending => some { state with phase := .crashed true pending }
      | _ => none
  | .crashBeforeFsync =>
      match state.phase with
      | .writing pending => some { state with phase := .crashed false pending }
      | _ => none
  | .crashIdle =>
      match state.phase with
      | .idle => some { state with phase := .crashed false ∅ }
      | .recovered => some { state with phase := .crashed false ∅ }
      | _ => none
  | .recover =>
      match state.phase with
      | .crashed fsynced pending => some (state.recovery fsynced pending)
      | _ => none

/-- `within_boundary`: the states that the checker explores. -/
def withinBoundary (state : CrashRecoveryState δ) : Bool :=
  decide (state.committedCount ≤ model.maxCommits)

/-- The model as the checker explores it. -/
def checked : Model (CrashRecoveryState δ) (CrashRecoveryAction δ) :=
  ⟨initStates, model.actions, nextState, model.withinBoundary⟩

end CrashRecoveryModel

namespace CrashRecoveryState

/-- `inv_ferr_014_recovery_preserves_committed`, which is also the property of
`inv_ferr_018_append_only_recovery`. -/
def recoveryPreservesCommitted (state : CrashRecoveryState δ) : Bool :=
  match state.phase with
  | .recovered => decide (state.committedStore ⊆ state.recoveredStore)
  | _ => true

/-- `inv_ferr_014_no_phantom_datoms`. -/
def noPhantomDatoms (state : CrashRecoveryState δ) : Bool :=
  match state.phase with
  | .recovered => decide (state.recoveredStore ⊆ state.committedStore)
  | _ => true

/-- `inv_ferr_014_recovery_idempotent`, which is also the property of
`inv_ferr_013_checkpoint_equivalence`. -/
def recoveryIdempotent (state : CrashRecoveryState δ) : Bool :=
  match state.phase with
  | .recovered => decide (state.recoveredStore = state.committedStore)
  | _ => true

/-- `inv_ferr_005_index_bijection`. -/
def indexBijection (state : CrashRecoveryState δ) : Bool :=
  match state.phase with
  | .idle => decide (state.committedStore = state.indexSet)
  | .recovered => decide (state.committedStore = state.indexSet)
  | _ => true

/-- `inv_ferr_008_no_unfsynced_in_recovery`. -/
def noUnfsyncedInRecovery (state : CrashRecoveryState δ) : Bool :=
  match state.phase with
  | .crashed false pending => decide (∀ datom ∈ pending, datom ∉ state.wal)
  | _ => true

/-- `inv_ferr_008_fsynced_pending_in_wal`. -/
def fsyncedPendingInWal (state : CrashRecoveryState δ) : Bool :=
  match state.phase with
  | .crashed true pending => decide (∀ datom ∈ pending, datom ∈ state.wal)
  | _ => true

end CrashRecoveryState

namespace Phase

/-- The datoms of the transaction in progress. -/
def pending : Phase δ → Finset δ
  | .writing pending => pending
  | .fsynced pending => pending
  | .crashed _ pending => pending
  | _ => ∅

/-- The datoms of the transaction in progress that are synced. -/
def synced : Phase δ → Finset δ
  | .fsynced pending => pending
  | .crashed true pending => pending
  | _ => ∅

/-- Whether the transaction in progress can still be committed. -/
def live : Phase δ → Bool
  | .writing _ => true
  | .fsynced _ => true
  | .crashed true _ => true
  | _ => false

/-- The phases without a transaction in progress. -/
def stable : Phase δ → Bool
  | .idle => true
  | .recovered => true
  | _ => false

end Phase

namespace CrashRecoveryState

/-- The invariant of the model: the log holds what is committed and what is synced, and a
transaction in progress has one datom that is not committed. -/
structure Inv (model : CrashRecoveryModel δ) (state : CrashRecoveryState δ) : Prop where
  counted : state.committedStore.card = state.committedCount
  logged : state.wal = state.committedStore ∪ state.phase.synced
  fresh : ∀ datom ∈ state.phase.pending, datom ∉ state.committedStore
  bound : state.committedCount + state.phase.pending.card ≤ model.maxCommits
  single : state.phase.live = true → state.phase.pending.card = 1
  indexed : state.phase.stable = true → state.indexSet = state.committedStore
  restored : state.phase = .recovered → state.recoveredStore = state.committedStore
  running : state.phase ≠ .recovering
  known : ∀ datom ∈ state.committedStore ∪ state.phase.pending, datom ∈ model.datoms

end CrashRecoveryState

namespace CrashRecoveryModel

open CrashRecoveryState

variable {model : CrashRecoveryModel δ} {state : CrashRecoveryState δ}

/-- The checker begins a write only of a new datom of the domain, and within the bound. -/
theorem of_beginWrite_mem_actions {datom : δ} (h : .beginWrite datom ∈ model.actions state) :
    datom ∈ model.datoms ∧ datom ∉ state.committedStore ∧
      state.committedCount < model.maxCommits := by
  have hmem : .beginWrite datom ∈ model.generateWriteActions state := by
    rw [actions] at h
    split at h
    case h_1 | h_6 =>
        rcases List.mem_append.mp h with hwrite | hcrash
        · exact hwrite
        · cases List.mem_singleton.mp hcrash
    case h_2 | h_3 | h_4 | h_5 => simp at h
  rw [generateWriteActions] at hmem
  split at hmem
  case isTrue hcount =>
      obtain ⟨datom', hdatom', heq⟩ := List.mem_map.mp hmem
      cases heq
      obtain ⟨hdomain, hnew⟩ := List.mem_filter.mp hdatom'
      exact ⟨hdomain, of_decide_eq_true hnew, hcount⟩
  case isFalse => exact absurd hmem List.not_mem_nil

end CrashRecoveryModel

namespace CrashRecoveryState

open CrashRecoveryModel

variable {model : CrashRecoveryModel δ} {state : CrashRecoveryState δ}

/-- The invariant holds of the initial states. -/
theorem Inv.init (model : CrashRecoveryModel δ) :
    ∀ state ∈ (initStates : List (CrashRecoveryState δ)), state.Inv model := by
  intro state hstate
  rw [List.mem_singleton.mp hstate]
  refine ⟨rfl, (Finset.union_empty _).symm, fun _ _ => Finset.notMem_empty _, Nat.zero_le _,
    fun hlive => absurd hlive Bool.false_ne_true, fun _ => rfl, fun hphase => (by cases hphase),
    fun hphase => (by cases hphase), fun datom hdatom => ?_⟩
  rcases Finset.mem_union.mp hdatom with hnone | hnone
  · exact absurd hnone (Finset.notMem_empty datom)
  · exact absurd hnone (Finset.notMem_empty datom)

/-- Without a transaction in progress the log holds what is committed. -/
theorem Inv.wal_of_stable (h : state.Inv model) (hstable : state.phase.stable = true) :
    state.wal = state.committedStore := by
  have hnone : state.phase.synced = ∅ := by
    cases hphase : state.phase with
    | idle => rfl
    | recovered => rfl
    | _ => rw [hphase] at hstable; cases hstable
  rw [h.logged, hnone, Finset.union_empty]

/-- A write begins where nothing is in progress. -/
theorem Inv.beginWrite (h : state.Inv model) (hstable : state.phase.stable = true) {datom : δ}
    (haction : .beginWrite datom ∈ model.actions state) :
    Inv model { state with phase := .writing {datom} } := by
  obtain ⟨hdomain, hnew, hcount⟩ := of_beginWrite_mem_actions haction
  refine ⟨h.counted, ?_, fun other hother => ?_, hcount, fun _ => Finset.card_singleton datom,
    fun hnext => absurd hnext Bool.false_ne_true, fun hphase => (by cases hphase),
    fun hphase => (by cases hphase), fun other hother => ?_⟩
  · exact (h.wal_of_stable hstable).trans (Finset.union_empty _).symm
  · rw [Finset.mem_singleton.mp hother]
    exact hnew
  · rcases Finset.mem_union.mp hother with hcommitted | hpending
    · exact h.known other (Finset.mem_union_left _ hcommitted)
    · rw [Finset.mem_singleton.mp hpending]
      exact hdomain

/-- A sync puts the transaction into the log. -/
theorem Inv.fsyncWal {pending : Finset δ} (h : state.Inv model)
    (hphase : state.phase = .writing pending) :
    Inv model { state with wal := state.wal ∪ pending, phase := .fsynced pending } := by
  obtain ⟨hcounted, hlogged, hfresh, hbound, hsingle, -, -, -, hknown⟩ := h
  rw [hphase] at hlogged hfresh hbound hsingle hknown
  refine ⟨hcounted, ?_, hfresh, hbound, fun _ => hsingle rfl,
    fun hstable => absurd hstable Bool.false_ne_true, fun hphase => (by cases hphase),
    fun hphase => (by cases hphase), hknown⟩
  show state.wal ∪ pending = state.committedStore ∪ pending
  rw [hlogged]
  exact congrArg (· ∪ pending) (Finset.union_empty _)

/-- What is committed grows by the one datom of the transaction. -/
theorem Inv.card_union (h : state.Inv model) (hlive : state.phase.live = true) :
    (state.committedStore ∪ state.phase.pending).card = state.committedCount + 1 := by
  have hdisjoint : Disjoint state.committedStore state.phase.pending :=
    Finset.disjoint_right.mpr h.fresh
  rw [Finset.card_union_of_disjoint hdisjoint, h.counted, h.single hlive]

/-- A commit keeps the invariant. -/
theorem Inv.commit {pending : Finset δ} (h : state.Inv model)
    (hphase : state.phase = .fsynced pending) :
    Inv model { state with
      committedStore := state.committedStore ∪ pending
      indexSet := state.committedStore ∪ pending
      committedCount := state.committedCount + 1
      phase := .idle } := by
  have hcard := h.card_union (by rw [hphase]; rfl)
  obtain ⟨-, hlogged, -, hbound, hsingle, -, -, -, hknown⟩ := h
  rw [hphase] at hcard hlogged hbound hsingle hknown
  refine ⟨hcard, ?_, fun _ hdatom => absurd hdatom (Finset.notMem_empty _), ?_,
    fun hlive => absurd hlive Bool.false_ne_true, fun _ => rfl, fun hphase => (by cases hphase),
    fun hphase => (by cases hphase), ?_⟩
  · exact hlogged.trans (Finset.union_empty _).symm
  · have hone := hsingle rfl
    show state.committedCount + 1 + 0 ≤ model.maxCommits
    omega
  · intro datom hdatom
    exact hknown datom ((Finset.mem_union.mp hdatom).resolve_right (Finset.notMem_empty datom))

/-- A crash leaves what is stored, and a transaction that is not synced is not in the log. -/
theorem Inv.crash (h : state.Inv model) {fsynced : Bool} {pending : Finset δ}
    (hpending : pending ⊆ state.phase.pending)
    (hsynced : (Phase.crashed fsynced pending).synced = state.phase.synced)
    (hlive : fsynced = true → pending.card = 1) :
    Inv model { state with phase := .crashed fsynced pending } := by
  refine ⟨h.counted, ?_, fun datom hdatom => h.fresh datom (hpending hdatom), ?_,
    fun hcrashed => ?_,
    fun hstable => absurd hstable Bool.false_ne_true, fun hphase => (by cases hphase),
    fun hphase => (by cases hphase), fun datom hdatom => ?_⟩
  · rw [hsynced]
    exact h.logged
  · exact Nat.le_trans (Nat.add_le_add_left (Finset.card_le_card hpending) _) h.bound
  · cases fsynced with
    | true => exact hlive rfl
    | false => exact absurd hcrashed Bool.false_ne_true
  · exact h.known datom (Finset.union_subset_union_right hpending hdatom)

/-- A recovery commits what the log holds. -/
theorem Inv.committedStore_recovery {fsynced : Bool} {pending : Finset δ} (h : state.Inv model)
    (hphase : state.phase = .crashed fsynced pending) :
    (state.recovery fsynced pending).committedStore = state.wal := by
  rw [h.logged, hphase]
  cases fsynced with
  | true => rfl
  | false => exact (Finset.union_empty _).symm

/-- Recovery keeps the invariant. -/
theorem Inv.recovery {fsynced : Bool} {pending : Finset δ} (h : state.Inv model)
    (hphase : state.phase = .crashed fsynced pending) :
    (state.recovery fsynced pending).Inv model := by
  have hcommitted := h.committedStore_recovery hphase
  have hcard : fsynced = true → (state.committedStore ∪ pending).card = state.committedCount + 1 ∧
      pending.card = 1 := by
    intro hfsynced
    subst hfsynced
    have hlive : state.phase.live = true := by rw [hphase]; rfl
    have hunion := h.card_union hlive
    have hone := h.single hlive
    rw [hphase] at hunion hone
    exact ⟨hunion, hone⟩
  obtain ⟨hcounted, hlogged, -, hbound, -, -, -, -, hknown⟩ := h
  rw [hphase] at hlogged hbound hknown
  refine ⟨?_, ?_, fun _ hdatom => absurd hdatom (Finset.notMem_empty _), ?_,
    fun hlive => absurd hlive Bool.false_ne_true, fun _ => rfl, fun _ => rfl,
    fun hphase => (by cases hphase), fun datom hdatom => ?_⟩
  · cases fsynced with
    | true => exact (hcard rfl).1
    | false => exact hcounted
  · show state.wal = (state.recovery fsynced pending).committedStore ∪ ∅
    rw [hcommitted, Finset.union_empty]
  · show (if fsynced = true then _ else _) + 0 ≤ model.maxCommits
    cases fsynced with
    | true =>
        have hone := (hcard rfl).2
        simp only [Phase.pending, if_true] at hbound ⊢
        omega
    | false => exact Nat.le_trans (Nat.le_add_right _ _) hbound
  · have hmem : datom ∈ state.wal := by
      rw [← hcommitted]
      exact (Finset.mem_union.mp hdatom).resolve_right (Finset.notMem_empty datom)
    rw [hlogged] at hmem
    rcases Finset.mem_union.mp hmem with hold | hnew
    · exact hknown datom (Finset.mem_union_left _ hold)
    · refine hknown datom (Finset.mem_union_right _ ?_)
      cases fsynced with
      | true => exact hnew
      | false => exact absurd hnew (Finset.notMem_empty datom)

/-- A crash of a system at rest. -/
theorem Inv.crashIdle (h : state.Inv model) (hstable : state.phase.stable = true) :
    Inv model { state with phase := .crashed false ∅ } := by
  refine h.crash (Finset.empty_subset _) ?_ fun hfsynced => absurd hfsynced Bool.false_ne_true
  cases hphase : state.phase with
  | idle => rfl
  | recovered => rfl
  | _ => rw [hphase] at hstable; cases hstable

/-- What a step does, and in which phase. -/
inductive Stepped (state : CrashRecoveryState δ) :
    CrashRecoveryAction δ → CrashRecoveryState δ → Prop
  | beginWrite (datom : δ) (hstable : state.phase.stable = true) :
      Stepped state (.beginWrite datom) { state with phase := .writing {datom} }
  | fsyncWal {pending : Finset δ} (hphase : state.phase = .writing pending) :
      Stepped state .fsyncWal { state with wal := state.wal ∪ pending, phase := .fsynced pending }
  | commit {pending : Finset δ} (hphase : state.phase = .fsynced pending) :
      Stepped state .commit { state with
        committedStore := state.committedStore ∪ pending
        indexSet := state.committedStore ∪ pending
        committedCount := state.committedCount + 1
        phase := .idle }
  | crashBeforeFsync {pending : Finset δ} (hphase : state.phase = .writing pending) :
      Stepped state .crashBeforeFsync { state with phase := .crashed false pending }
  | crashAfterFsync {pending : Finset δ} (hphase : state.phase = .fsynced pending) :
      Stepped state .crashAfterFsync { state with phase := .crashed true pending }
  | crashIdle (hstable : state.phase.stable = true) :
      Stepped state .crashIdle { state with phase := .crashed false ∅ }
  | recover {fsynced : Bool} {pending : Finset δ}
      (hphase : state.phase = .crashed fsynced pending) :
      Stepped state .recover (state.recovery fsynced pending)

/-- What a state becomes is a step of its action. -/
theorem stepped_of_nextState {next : CrashRecoveryState δ} {action : CrashRecoveryAction δ}
    (hnext : CrashRecoveryModel.nextState state action = some next) :
    state.Stepped action next := by
  cases action with
  | beginWrite datom =>
      simp only [CrashRecoveryModel.nextState] at hnext
      split at hnext
      case h_1 hphase | h_2 hphase =>
          cases hnext
          exact .beginWrite datom (by rw [hphase]; rfl)
      case h_3 => cases hnext
  | fsyncWal =>
      simp only [CrashRecoveryModel.nextState] at hnext
      split at hnext
      case h_1 pending hphase =>
          cases hnext
          exact .fsyncWal hphase
      case h_2 => cases hnext
  | commit =>
      simp only [CrashRecoveryModel.nextState] at hnext
      split at hnext
      case h_1 pending hphase =>
          cases hnext
          exact .commit hphase
      case h_2 => cases hnext
  | crashBeforeFsync =>
      simp only [CrashRecoveryModel.nextState] at hnext
      split at hnext
      case h_1 pending hphase =>
          cases hnext
          exact .crashBeforeFsync hphase
      case h_2 => cases hnext
  | crashAfterFsync =>
      simp only [CrashRecoveryModel.nextState] at hnext
      split at hnext
      case h_1 pending hphase =>
          cases hnext
          exact .crashAfterFsync hphase
      case h_2 => cases hnext
  | crashIdle =>
      simp only [CrashRecoveryModel.nextState] at hnext
      split at hnext
      case h_1 hphase | h_2 hphase =>
          cases hnext
          exact .crashIdle (by rw [hphase]; rfl)
      case h_3 => cases hnext
  | recover =>
      simp only [CrashRecoveryModel.nextState] at hnext
      split at hnext
      case h_1 fsynced pending hphase =>
          cases hnext
          exact .recover hphase
      case h_2 => cases hnext

/-- Every action keeps the invariant. -/
theorem Inv.nextState (h : state.Inv model) {next : CrashRecoveryState δ}
    {action : CrashRecoveryAction δ} (haction : action ∈ model.actions state)
    (hnext : nextState state action = some next) : next.Inv model := by
  cases stepped_of_nextState hnext with
  | beginWrite datom hstable => exact h.beginWrite hstable haction
  | fsyncWal hphase => exact h.fsyncWal hphase
  | commit hphase => exact h.commit hphase
  | crashBeforeFsync hphase =>
      exact h.crash (by rw [hphase]; exact Finset.Subset.refl _) (by rw [hphase]; rfl)
        fun hfsynced => absurd hfsynced Bool.false_ne_true
  | crashAfterFsync hphase =>
      have hsingle := h.single (by rw [hphase]; rfl)
      rw [hphase] at hsingle
      exact h.crash (by rw [hphase]; exact Finset.Subset.refl _) (by rw [hphase]; rfl)
        fun _ => hsingle
  | crashIdle hstable => exact h.crashIdle hstable
  | recover hphase => exact h.recovery hphase

/-- What is stored and what is logged only grow. -/
structure Grows (state next : CrashRecoveryState δ) : Prop where
  committed : state.committedStore ⊆ next.committedStore
  logged : state.wal ⊆ next.wal

omit [DecidableEq δ] in
/-- Every state grows from itself. -/
theorem Grows.refl (state : CrashRecoveryState δ) : state.Grows state :=
  ⟨Finset.Subset.refl _, Finset.Subset.refl _⟩

omit [DecidableEq δ] in
/-- A state that grows from a grown one grows from the first. -/
theorem Grows.trans {first second third : CrashRecoveryState δ} (h : first.Grows second)
    (hlater : second.Grows third) : first.Grows third :=
  ⟨h.committed.trans hlater.committed, h.logged.trans hlater.logged⟩

/-- Every action lets the state grow. -/
theorem grows_nextState {next : CrashRecoveryState δ} {action : CrashRecoveryAction δ}
    (hnext : CrashRecoveryModel.nextState state action = some next) : state.Grows next := by
  cases stepped_of_nextState hnext with
  | beginWrite | crashBeforeFsync | crashAfterFsync | crashIdle =>
      exact ⟨Finset.Subset.refl _, Finset.Subset.refl _⟩
  | fsyncWal => exact ⟨Finset.Subset.refl _, Finset.subset_union_left⟩
  | commit => exact ⟨Finset.subset_union_left, Finset.Subset.refl _⟩
  | @recover fsynced pending =>
      refine ⟨?_, Finset.Subset.refl _⟩
      cases fsynced with
      | true => exact Finset.subset_union_left
      | false => exact Finset.Subset.refl _

end CrashRecoveryState

namespace CrashRecoveryModel

open CrashRecoveryState

variable {model : CrashRecoveryModel δ} {state : CrashRecoveryState δ}

/-- The invariant holds in every state the checker visits. -/
theorem invariant_checked (model : CrashRecoveryModel δ) :
    model.checked.Invariant (Inv model) :=
  ⟨Inv.init model, fun _ _ _ h haction hnext => h.nextState haction hnext⟩

/-- Every run from a state under the invariant lets it grow. -/
theorem grows_steps (h : state.Inv model) {next : CrashRecoveryState δ}
    (hsteps : model.checked.Steps state next) : state.Grows next :=
  model.invariant_checked.related Grows.refl (fun _ _ _ => Grows.trans)
    (fun _ _ _ _ _ hnext => grows_nextState hnext) h hsteps

/-- A state under the invariant is within the boundary. -/
theorem within (h : state.Inv model) : model.checked.withinBoundary state = true :=
  decide_eq_true (Nat.le_trans (Nat.le_add_right _ _) h.bound)

/-- After a crash, a recovery restores what the log holds. -/
theorem recovers_crashed (h : state.Inv model) {fsynced : Bool} {pending : Finset δ}
    (hphase : state.phase = .crashed fsynced pending) :
    ∃ next, model.checked.Steps state next ∧ next.phase = .recovered ∧
      next.committedStore = state.wal := by
  refine ⟨_, .single (?_ : .recover ∈ model.actions state) ?_ (within (h.recovery hphase)), rfl,
    h.committedStore_recovery hphase⟩
  · rw [actions, hphase]
    exact List.mem_singleton.mpr rfl
  · show nextState state .recover = _
    rw [nextState, hphase]

/-- A crash, and the recovery from it. -/
theorem recovers_crash (h : state.Inv model) (action : CrashRecoveryAction δ) {fsynced : Bool}
    {pending : Finset δ} (haction : action ∈ model.actions state)
    (hnext : nextState state action = some { state with phase := .crashed fsynced pending }) :
    ∃ next, model.checked.Steps state next ∧ next.phase = .recovered ∧
      next.committedStore = state.wal := by
  have hcrashed := h.nextState haction hnext
  obtain ⟨next, hsteps, hphase, hcommitted⟩ := recovers_crashed hcrashed rfl
  exact ⟨next, .step haction hnext (within hcrashed) hsteps, hphase, hcommitted⟩

/-- From any state the process can crash, unless it has, and recover. -/
theorem recovers (h : state.Inv model) : ∃ next, model.checked.Steps state next ∧
    next.phase = .recovered ∧ next.committedStore = state.wal := by
  cases hphase : state.phase with
  | idle =>
      refine recovers_crash h .crashIdle ?_ (by rw [nextState, hphase])
      rw [actions, hphase]
      exact List.mem_append_right _ (List.mem_singleton.mpr rfl)
  | writing pending =>
      refine recovers_crash h .crashBeforeFsync ?_ (by rw [nextState, hphase])
      rw [actions, hphase]
      exact List.mem_cons_of_mem _ (List.mem_singleton.mpr rfl)
  | fsynced pending =>
      refine recovers_crash h .crashAfterFsync ?_ (by rw [nextState, hphase])
      rw [actions, hphase]
      exact List.mem_cons_of_mem _ (List.mem_singleton.mpr rfl)
  | crashed fsynced pending => exact recovers_crashed h hphase
  | recovering => exact absurd hphase h.running
  | recovered =>
      refine recovers_crash h .crashIdle ?_ (by rw [nextState, hphase])
      rw [actions, hphase]
      exact List.mem_append_right _ (List.mem_singleton.mpr rfl)

/-- What holds of an explored state and of all states that follow it. -/
structure Recoverable (model : CrashRecoveryModel δ) (state : CrashRecoveryState δ) : Prop where
  preserved : state.recoveryPreservesCommitted = true
  phantom : state.noPhantomDatoms = true
  idempotent : state.recoveryIdempotent = true
  bijection : state.indexBijection = true
  unsynced : state.noUnfsyncedInRecovery = true
  synced : state.fsyncedPendingInWal = true
  /-- Only datoms that the model writes are stored. -/
  written : ∀ datom ∈ state.committedStore, datom ∈ model.datoms
  /-- What is committed stays so, and what is synced is committed wherever nothing is in progress.
  -/
  kept : ∀ next, model.checked.Steps state next → state.committedStore ⊆ next.committedStore ∧
    (next.phase.stable = true → state.wal ⊆ next.committedStore)
  /-- A recovery can be reached that commits the log and nothing else. -/
  recovers : ∃ next, model.checked.Steps state next ∧ next.phase = .recovered ∧
    next.committedStore = state.wal

/-- Under the invariant a state is recoverable. -/
theorem recoverable_of_inv (h : state.Inv model) : model.Recoverable state := by
  refine ⟨?_, ?_, ?_, ?_, ?_, ?_,
    fun datom hdatom => h.known datom (Finset.mem_union_left _ hdatom),
    fun next hsteps => ?_, recovers h⟩
  · rw [recoveryPreservesCommitted]
    split
    case h_1 hphase => exact decide_eq_true (h.restored hphase).ge
    case h_2 => rfl
  · rw [noPhantomDatoms]
    split
    case h_1 hphase => exact decide_eq_true (h.restored hphase).le
    case h_2 => rfl
  · rw [recoveryIdempotent]
    split
    case h_1 hphase => exact decide_eq_true (h.restored hphase)
    case h_2 => rfl
  · rw [indexBijection]
    split
    case h_1 hphase | h_2 hphase => exact decide_eq_true (h.indexed (by rw [hphase]; rfl)).symm
    case h_3 => rfl
  · rw [noUnfsyncedInRecovery]
    split
    case h_1 pending hphase =>
        refine decide_eq_true fun datom hdatom => ?_
        rw [h.logged, hphase, Finset.mem_union, not_or]
        refine ⟨h.fresh datom ?_, Finset.notMem_empty datom⟩
        rw [hphase]
        exact hdatom
    case h_2 => rfl
  · rw [fsyncedPendingInWal]
    split
    case h_1 pending hphase =>
        refine decide_eq_true fun datom hdatom => ?_
        rw [h.logged, hphase]
        exact Finset.mem_union_right _ hdatom
    case h_2 => rfl
  · have hgrows := grows_steps h hsteps
    refine ⟨hgrows.committed, fun hstable => ?_⟩
    rw [← (model.invariant_checked.steps h hsteps).wal_of_stable hstable]
    exact hgrows.logged

/-- The properties that the checker asserts hold at every bound, nothing committed or synced is
lost, and every state can still be recovered. -/
theorem crashes_recovered (model : CrashRecoveryModel δ) :
    model.checked.Always model.Recoverable :=
  model.invariant_checked.always.imp fun _ => recoverable_of_inv

end CrashRecoveryModel

end Ferratomic.Checker
