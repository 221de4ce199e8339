import Ferratomic.Checker.SnapshotIsolation
import Ferratomic.Db.Linearize
import Ferratomic.Lib.Forall2

/-!
# Snapshots while others write

`Database::snapshot` loads the published store and freezes its datoms and its epoch. Readers take
snapshots between the steps of any number of writers. The main theorems say that a snapshot has
exactly the datoms of the transactions up to its epoch, whatever is published later
(`snapshots_consistent`), and that such runs are runs of the checker's model of snapshot isolation
(`readers_refine`).
-/

namespace Ferratomic

open Lib Checker

section Snapshots

variable [Blake3]

/-- `SnapshotDatoms`: the datoms of a store in its representation. -/
inductive SnapshotDatoms where
  | positional (ps : PositionalStore)
  | ordSet (datoms : Finset Datom)

/-- `SnapshotDatoms::iter`: the datoms in the order of iteration. -/
def SnapshotDatoms.iter : SnapshotDatoms → List Datom
  | positional ps => ps.canonical
  | ordSet datoms => datoms.sort (· ≤ ·)

/-- `Snapshot`: a view of a store that later writes do not change. -/
structure Snapshot where
  datoms : SnapshotDatoms
  epoch : UInt64

/-- `Store::snapshot`: freeze the datoms and the epoch. -/
def Store.snapshot (store : Store) : Snapshot where
  datoms :=
    match store.repr with
    | .positional ps => .positional ps
    | .ordMap datoms _ => .ordSet datoms
  epoch := store.epoch

/-- `Database::snapshot`: a snapshot of the published store. -/
def Database.snapshot (db : Database) : Snapshot :=
  db.current.snapshot

/-- A snapshot iterates over the datoms of the store. -/
@[simp]
theorem Store.iter_snapshot (store : Store) : store.snapshot.datoms.iter = store.datoms := by
  cases hrepr : store.repr <;> simp [snapshot, datoms, StoreRepr.datoms, SnapshotDatoms.iter, hrepr]

/-- A snapshot has the epoch of the store. -/
@[simp]
theorem Store.epoch_snapshot (store : Store) : store.snapshot.epoch = store.epoch := rfl

/-- A snapshot shows exactly the datoms of the store. -/
theorem Store.mem_iter_snapshot {store : Store} {d : Datom} :
    d ∈ store.snapshot.datoms.iter ↔ d ∈ store.datomSet := by
  rw [iter_snapshot, ← toFinset_datoms, List.mem_toFinset]

end Snapshots

/-- A database with its writers, and the snapshots that its readers took. -/
structure Readers (ι : Type) [Blake3] where
  writers : Writers ι
  snapshots : List (Nat × Snapshot)

/-- An action of a writer, or a reader takes a snapshot. -/
inductive ReadersAction (ι : Type) where
  | write (action : Action ι)
  | read (reader : Nat)

namespace ReadersAction

variable {ι : Type}

/-- The action of a writer. -/
def write? : ReadersAction ι → Option (Action ι)
  | write action => some action
  | read _ => none

/-- The reader that takes a snapshot. -/
def read? : ReadersAction ι → Option Nat
  | write _ => none
  | read reader => some reader

end ReadersAction

section Runs

variable [Blake3] [Bincode]

omit [Blake3] [Bincode] in
/-- Each receipt advances the epoch by one. -/
theorem Stamps.toNat_epoch {epoch epoch' : UInt64} {schema schema' : Schema}
    {receipts : List TxReceipt} (h : Stamps epoch schema receipts epoch' schema') :
    epoch'.toNat = epoch.toNat + receipts.length := by
  induction h with
  | nil => rfl
  | cons order hchecked _ _ ih =>
      rw [ih, checkedSucc_eq_some hchecked, List.length_cons]
      omega

/-- The publications of two runs in turn follow one another. -/
theorem Writers.publications_append {ι : Type} [DecidableEq ι] (state : Writers ι)
    (before after : List (Action ι)) :
    state.publications (before ++ after) =
      state.publications before ++ (state.run before).publications after := by
  induction before generalizing state with
  | nil => rfl
  | cons action rest ih =>
      rw [List.cons_append, publications, ih, publications, List.append_assoc]
      rfl

/-- The receipts of two runs in turn follow one another. -/
theorem Writers.receipts_append {ι : Type} [DecidableEq ι] (state : Writers ι)
    (before after : List (Action ι)) :
    state.receipts (before ++ after) =
      state.receipts before ++ (state.run before).receipts after := by
  rw [receipts, publications_append, List.flatMap_append]
  rfl

namespace Readers

variable {ι : Type} [DecidableEq ι]

/-- A database that no client has called. -/
def start (db : Database) : Readers ι :=
  ⟨Writers.start db, []⟩

/-- One step: a snapshot is one load of the published store. -/
def step (state : Readers ι) : ReadersAction ι → Readers ι
  | .write action => { state with writers := state.writers.step action }
  | .read reader =>
      { state with snapshots := state.snapshots ++ [(reader, state.writers.db.snapshot)] }

/-- The state after a sequence of actions. -/
def run (state : Readers ι) : List (ReadersAction ι) → Readers ι
  | [] => state
  | action :: rest => (state.step action).run rest

/-- The receipts of a sequence of actions, in the order of their publication. -/
def receipts (state : Readers ι) (actions : List (ReadersAction ι)) : List TxReceipt :=
  state.writers.receipts (actions.filterMap ReadersAction.write?)

/-- What the snapshots of a run say about what the run publishes. -/
structure Consistent (db : Database) (actions : List (ReadersAction ι)) : Prop where
  /-- A snapshot has the datoms of the start and of the transactions up to its epoch, and no
  others, also of those published after it was taken. -/
  complete : ∀ taken ∈ ((start db).run actions).snapshots, ∀ d,
    d ∈ taken.2.datoms.iter ↔ d ∈ db.current.datomSet ∨
      ∃ receipt ∈ (start db : Readers ι).receipts actions,
        receipt.epoch ≤ taken.2.epoch ∧ d ∈ receipt.datoms
  /-- A later snapshot of any reader is of the same epoch or a later one. -/
  monotone : ((start db).run actions).snapshots.Pairwise fun taken later =>
    taken.2.epoch ≤ later.2.epoch
  /-- A snapshot that is taken at any time after a call has returned has its transactions. -/
  recent : ∀ before between reader after client receipts,
    actions = before ++ between ++ .read reader :: after →
    ((start db).run before).writers.phase client = .done (.ok receipts) →
    ∀ receipt ∈ receipts, ∀ d ∈ receipt.datoms,
      d ∈ ((start db : Readers ι).run (before ++ between)).writers.db.snapshot.datoms.iter

/-- A run in two parts is one part after the other. -/
theorem run_append (state : Readers ι) (before after : List (ReadersAction ι)) :
    state.run (before ++ after) = (state.run before).run after := by
  induction before generalizing state with
  | nil => rfl
  | cons action rest ih => exact ih (state.step action)

/-- The readers do not disturb the writers. -/
theorem writers_run (state : Readers ι) (actions : List (ReadersAction ι)) :
    (state.run actions).writers = state.writers.run (actions.filterMap ReadersAction.write?) := by
  induction actions generalizing state with
  | nil => rfl
  | cons action rest ih =>
      cases action with
      | write action => exact ih (state.step (.write action))
      | read reader => exact ih (state.step (.read reader))

/-- A snapshot that a run took is one of the published store at the time. -/
theorem exists_of_mem_snapshots {state : Readers ι} {actions : List (ReadersAction ι)}
    {taken : Nat × Snapshot} (h : taken ∈ (state.run actions).snapshots) :
    taken ∈ state.snapshots ∨ ∃ before after, actions = before ++ .read taken.1 :: after ∧
      taken.2 = (state.run before).writers.db.snapshot := by
  induction actions generalizing state with
  | nil => exact .inl h
  | cons action rest ih =>
      rcases ih h with hold | ⟨before, after, rfl, htaken⟩
      · cases action with
        | write action => exact .inl hold
        | read reader =>
            rcases List.mem_append.mp hold with hbefore | hnew
            · exact .inl hbefore
            · rw [List.mem_singleton.mp hnew]
              exact .inr ⟨[], rest, rfl, rfl⟩
      · exact .inr ⟨action :: before, after, rfl, htaken⟩

/-- The receipts of two runs with readers in turn follow one another. -/
theorem receipts_append (state : Readers ι) (before after : List (ReadersAction ι)) :
    state.receipts (before ++ after) =
      state.receipts before ++ (state.run before).receipts after := by
  rw [receipts, receipts, receipts, List.filterMap_append, Writers.receipts_append, writers_run]

/-- What a run publishes before and after a moment. -/
theorem commits_split (db : Database) (before after : List (ReadersAction ι)) :
    Commits db.current.obs ((start db : Readers ι).receipts before)
        ((start db : Readers ι).run before).writers.db.current.obs ∧
      Commits ((start db : Readers ι).run before).writers.db.current.obs
        (((start db : Readers ι).run before).receipts after)
        ((start db : Readers ι).run (before ++ after)).writers.db.current.obs := by
  obtain ⟨txIds, hbefore⟩ :=
    (Writers.inv_start db : Writers.Inv [] (Writers.start db : Writers ι)).run
      (before.filterMap ReadersAction.write?)
  obtain ⟨txIds', hafter⟩ := hbefore.inv.run (after.filterMap ReadersAction.write?)
  refine ⟨?_, ?_⟩
  · rw [writers_run]
    exact hbefore.commits
  · rw [run_append, receipts, writers_run ((start db).run before), writers_run]
    exact hafter.commits

/-- The snapshots so far are of increasing epochs, up to the current one. -/
structure Ordered (state : Readers ι) : Prop where
  pairwise : state.snapshots.Pairwise fun taken later => taken.2.epoch ≤ later.2.epoch
  upto : ∀ taken ∈ state.snapshots, taken.2.epoch ≤ state.writers.db.current.epoch

/-- Every run keeps the snapshots ordered. -/
theorem Ordered.run {state : Readers ι} (h : state.Ordered) {published : List TxId}
    (hinv : state.writers.Inv published) (actions : List (ReadersAction ι)) :
    (state.run actions).Ordered := by
  induction actions generalizing state published with
  | nil => exact h
  | cons action rest ih =>
      cases action with
      | write action =>
          obtain ⟨txIds, hstepped⟩ := hinv.step action
          refine ih ⟨h.pairwise, fun taken htaken => ?_⟩ hstepped.inv
          obtain ⟨epoch, schema, hstamps, hobs⟩ := hstepped.commits
          have hepoch : (state.writers.step action).db.current.epoch = epoch :=
            congrArg Observation.epoch hobs
          show taken.2.epoch ≤ (state.writers.step action).db.current.epoch
          rw [hepoch]
          exact (h.upto taken htaken).trans hstamps.epoch_le
      | read reader =>
          refine ih ⟨?_, fun taken htaken => ?_⟩ hinv
          · refine List.pairwise_append.mpr ⟨h.pairwise, List.pairwise_singleton _ _, ?_⟩
            intro taken htaken later hlater
            rw [List.mem_singleton.mp hlater]
            exact h.upto taken htaken
          · rcases List.mem_append.mp htaken with hold | hnew
            · exact h.upto taken hold
            · rw [List.mem_singleton.mp hnew]
              exact le_refl _

/-- Snapshots are isolated from what is published after them, whatever the order of the steps of
the writers and the readers. -/
theorem snapshots_consistent (db : Database) (actions : List (ReadersAction ι)) :
    Consistent db actions := by
  refine ⟨fun taken htaken d => ?_, ?_, ?_⟩
  · rcases exists_of_mem_snapshots htaken with hstart | ⟨before, after, rfl, hsnapshot⟩
    · exact absurd hstart List.not_mem_nil
    · obtain ⟨hfirst, hlater⟩ := commits_split db before (.read taken.1 :: after)
      rw [hsnapshot, receipts_append, Database.snapshot, Store.mem_iter_snapshot,
        Store.epoch_snapshot]
      have hmem := hfirst.mem_datomSet (d := d)
      obtain ⟨epoch, schema, hstamps, hobs⟩ := hfirst
      obtain ⟨epoch', schema', hstamps', -⟩ := hlater
      have hepoch : ((start db : Readers ι).run before).writers.db.current.epoch = epoch :=
        congrArg Observation.epoch hobs
      refine hmem.trans (or_congr Iff.rfl ⟨fun h => ?_, fun h => ?_⟩)
      · obtain ⟨receipt, hreceipt, hd⟩ := h
        refine ⟨receipt, List.mem_append_left _ hreceipt, ?_, hd⟩
        rw [hepoch]
        exact (hstamps.epoch_mem hreceipt).2
      · obtain ⟨receipt, hreceipt, hle, hd⟩ := h
        rcases List.mem_append.mp hreceipt with hold | hnew
        · exact ⟨receipt, hold, hd⟩
        · -- what is published later has a later epoch
          exact absurd hle (not_le_of_gt (hstamps'.epoch_mem hnew).1)
  · have hordered : (start db : Readers ι).Ordered :=
      ⟨.nil, fun taken htaken => absurd htaken List.not_mem_nil⟩
    exact (hordered.run (Writers.inv_start db) actions).pairwise
  · intro before between reader after client receipts hactions hdone receipt hreceipt d hd
    obtain ⟨hfirst, -⟩ := commits_split db (before ++ between) after
    rw [Database.snapshot, Store.mem_iter_snapshot]
    rw [writers_run] at hdone
    refine hfirst.mem_datomSet.mpr (.inr ⟨receipt, ?_, hd⟩)
    rw [receipts_append]
    exact List.mem_append_left _ (Writers.mem_receipts_of_done hdone hreceipt)

/-- The datoms of receipts, filed under their epochs. -/
def filed (receipts : List TxReceipt) : OrdMap Nat (Finset Datom) :=
  receipts.foldl (fun map receipt => map.insert receipt.epoch.toNat receipt.datoms.toFinset) ∅

/-- A state of the checker's model shows a database and its snapshots. -/
structure Shows (readers : Nat) (receipts : List TxReceipt) (state : Readers ι)
    (shown : SnapshotIsolationState Datom) : Prop where
  epoch : shown.currentEpoch = state.writers.db.current.epoch.toNat
  filed : shown.datomsByEpoch = filed receipts
  captured : shown.readerSnapshots = state.snapshots.map fun taken =>
    (taken.2.epoch.toNat, taken.2.datoms.iter.toFinset)
  recorded : shown.observerEpochHistory = (List.range readers).map fun reader =>
    (state.snapshots.filter fun taken => taken.1 = reader).map fun taken => taken.2.epoch.toNat
  pending : shown.pendingWrite = none
  writes : shown.totalWrites = receipts.length

/-- The bounds of the model that a run stays within. -/
def bounds (db : Database) (actions : List (ReadersAction ι)) : SnapshotIsolationModel Datom :=
  let receipts := (start db : Readers ι).receipts actions
  let reads := actions.filterMap ReadersAction.read?
  ⟨receipts.length, receipts.flatMap TxReceipt.datoms, reads.length + reads.sum + 1,
    receipts.length⟩

omit [Blake3] [Bincode] in
/-- An epoch files exactly the datoms of its receipt. -/
theorem getElem?_filed {receipts : List TxReceipt}
    (h : (receipts.map fun receipt => receipt.epoch.toNat).Nodup) {epoch : Nat}
    {ids : Finset Datom} : (filed receipts)[epoch]? = some ids ↔
      ∃ receipt ∈ receipts, receipt.epoch.toNat = epoch ∧ receipt.datoms.toFinset = ids := by
  induction receipts using List.reverseRecOn with
  | nil => simp [filed]
  | append_singleton earlier last ih =>
      rw [List.map_append, List.nodup_append] at h
      obtain ⟨hearlier, -, hdisjoint⟩ := h
      rw [filed, List.foldl_append, List.foldl_cons, List.foldl_nil, OrdMap.getElem?_insert_eq]
      split
      case isTrue hepoch =>
          constructor
          · intro hids
            exact ⟨last, List.mem_append_right _ (List.mem_singleton.mpr rfl), hepoch,
              Option.some.inj hids⟩
          · intro hids
            obtain ⟨receipt, hreceipt, hsame, hids⟩ := hids
            rcases List.mem_append.mp hreceipt with hold | hnew
            · -- the epochs are distinct
              refine absurd (hsame.trans hepoch.symm) (hdisjoint _ ?_ _ ?_)
              · exact List.mem_map_of_mem hold
              · exact List.mem_map_of_mem (List.mem_singleton.mpr rfl)
            · rw [List.mem_singleton.mp hnew] at hids
              rw [hids]
      case isFalse hepoch =>
          refine (ih hearlier).trans ⟨fun hids => ?_, fun hids => ?_⟩
          · obtain ⟨receipt, hreceipt, hsame⟩ := hids
            exact ⟨receipt, List.mem_append_left _ hreceipt, hsame⟩
          · obtain ⟨receipt, hreceipt, hsame, hids⟩ := hids
            rcases List.mem_append.mp hreceipt with hold | hnew
            · exact ⟨receipt, hold, hsame, hids⟩
            · rw [List.mem_singleton.mp hnew] at hsame
              exact absurd hsame hepoch

omit [Blake3] [Bincode] in
/-- The datoms that are visible at the last epoch are those of the receipts. -/
theorem visible_filed {before after : Observation} {receipts : List TxReceipt}
    (h : Commits before receipts after) (hempty : before.datomSet = ∅) :
    visibleDatomsAtEpoch (filed receipts) after.epoch.toNat = after.datomSet := by
  ext d
  rw [h.mem_datomSet, hempty, mem_visibleDatomsAtEpoch]
  obtain ⟨epoch, schema, hstamps, rfl⟩ := h
  have hnodup : (receipts.map fun receipt => receipt.epoch.toNat).Nodup := by
    rw [hstamps.map_epoch]
    exact List.nodup_range'
  simp only [getElem?_filed hnodup, Finset.notMem_empty, false_or]
  constructor
  · intro hd
    obtain ⟨_, _, ⟨receipt, hreceipt, -, rfl⟩, -, hmem⟩ := hd
    exact ⟨receipt, hreceipt, List.mem_toFinset.mp hmem⟩
  · intro hd
    obtain ⟨receipt, hreceipt, hmem⟩ := hd
    refine ⟨_, _, ⟨receipt, hreceipt, rfl, rfl⟩, ?_, List.mem_toFinset.mpr hmem⟩
    exact UInt64.le_iff_toNat_le.mp (hstamps.epoch_mem hreceipt).2

omit [Blake3] [Bincode] in
/-- Receipts of consecutive epochs are committed by the model one after another. -/
theorem foldl_commit {epoch epoch' : UInt64} {schema schema' : Schema}
    {receipts : List TxReceipt} (h : Stamps epoch schema receipts epoch' schema')
    {shown : SnapshotIsolationState Datom} (hepoch : shown.currentEpoch = epoch.toNat) :
    (receipts.map fun receipt => receipt.datoms.toFinset).foldl SnapshotIsolationState.commit
        shown = { shown with
      currentEpoch := epoch'.toNat
      datomsByEpoch := receipts.foldl
        (fun map receipt => map.insert receipt.epoch.toNat receipt.datoms.toFinset)
        shown.datomsByEpoch
      totalWrites := shown.totalWrites + receipts.length } := by
  induction h generalizing shown with
  | nil =>
      rw [← hepoch]
      rfl
  | cons order hchecked _ _ ih =>
      have hnext := checkedSucc_eq_some hchecked
      rw [List.map_cons, List.foldl_cons, ih]
      · simp only [SnapshotIsolationState.commit, List.foldl_cons, List.length_cons, hepoch, hnext]
        congr 1
        omega
      · rw [SnapshotIsolationState.commit, hnext, hepoch]

/-- A state of the model shows the state that a run has reached. -/
structure Tracked (db : Database) (model : SnapshotIsolationModel Datom)
    (receipts : List TxReceipt) (state : Readers ι) (shown : SnapshotIsolationState Datom) :
    Prop where
  inv : ∃ published, state.writers.Inv published
  commits : Commits db.current.obs receipts state.writers.db.current.obs
  shows : Shows model.maxReaders receipts state shown
  within : model.Within shown

/-- A run stays within the bounds of the model from a state on. -/
structure Room (model : SnapshotIsolationModel Datom) (past : List TxReceipt)
    (state : Readers ι) (actions : List (ReadersAction ι)) : Prop where
  epochs : state.writers.db.current.epoch.toNat + (state.receipts actions).length ≤
    model.maxEpochs
  writes : past.length + (state.receipts actions).length ≤ model.maxWrites
  domain : ∀ receipt ∈ state.receipts actions, ∀ d ∈ receipt.datoms, d ∈ model.domain
  reads : state.snapshots.length + (actions.filterMap ReadersAction.read?).length ≤
    model.maxReaders
  readers : ∀ reader ∈ actions.filterMap ReadersAction.read?, reader < model.maxReaders

/-- The snapshot of a reader is one step of the model. -/
theorem Tracked.read {db : Database} (hempty : db.current.datomSet = ∅)
    {model : SnapshotIsolationModel Datom} {past : List TxReceipt} {state : Readers ι}
    {shown : SnapshotIsolationState Datom} (h : Tracked db model past state shown) {reader : Nat}
    (hroom : state.snapshots.length < model.maxReaders) (hreader : reader < model.maxReaders) :
    ∃ next, model.checked.Steps shown next ∧
      Tracked db model past (state.step (.read reader)) next := by
  have hvisible : visibleDatomsAtEpoch shown.datomsByEpoch shown.currentEpoch =
      state.writers.db.snapshot.datoms.iter.toFinset := by
    rw [h.shows.filed, h.shows.epoch, Database.snapshot, Store.iter_snapshot,
      Store.toFinset_datoms]
    exact visible_filed h.commits hempty
  have hlength : shown.readerSnapshots.length = state.snapshots.length := by
    rw [h.shows.captured, List.length_map]
  let next : SnapshotIsolationState Datom :=
    { shown with
      readerSnapshots := shown.readerSnapshots ++
        [(shown.currentEpoch, visibleDatomsAtEpoch shown.datomsByEpoch shown.currentEpoch)]
      observerEpochHistory :=
        shown.observerEpochHistory.modify reader (· ++ [shown.currentEpoch]) }
  have hrecorded : next.observerEpochHistory = (List.range model.maxReaders).map fun other =>
      ((state.step (.read reader)).snapshots.filter fun taken => taken.1 = other).map
        fun taken => taken.2.epoch.toNat := by
    show shown.observerEpochHistory.modify reader (· ++ [shown.currentEpoch]) = _
    rw [h.shows.recorded, h.shows.epoch]
    refine List.ext_getElem? fun index => ?_
    rw [List.getElem?_modify, List.getElem?_map, List.getElem?_map]
    by_cases hindex : index < model.maxReaders
    · rw [List.getElem?_range hindex]
      simp only [Option.map_some, Readers.step, List.filter_append, List.map_append,
        Option.map_eq_map, Database.snapshot]
      by_cases hown : reader = index
      · simp [hown]
      · simp [hown]
    · rw [List.getElem?_eq_none (by simp; omega)]
      rfl
  have hwithin : model.Within next := by
    refine ⟨h.within.epoch, ?_, h.within.writes, h.within.ids, ?_⟩
    · show (shown.readerSnapshots ++ [_]).length ≤ model.maxReaders
      rw [List.length_append, hlength, List.length_singleton]
      exact hroom
    · intro history hhistory
      rw [hrecorded] at hhistory
      obtain ⟨other, -, rfl⟩ := List.mem_map.mp hhistory
      rw [List.length_map]
      refine (List.length_filter_le _ _).trans ?_
      show (state.snapshots ++ [_]).length ≤ model.maxReaders
      rw [List.length_append, List.length_singleton]
      exact hroom
  refine ⟨next, SnapshotIsolationModel.steps_startRead (hlength ▸ hroom) hreader rfl hwithin,
    h.inv, h.commits, ⟨h.shows.epoch, h.shows.filed, ?_, hrecorded, h.shows.pending,
      h.shows.writes⟩, hwithin⟩
  show shown.readerSnapshots ++ [_] = (state.snapshots ++ [_]).map _
  rw [List.map_append, h.shows.captured, hvisible, h.shows.epoch]
  rfl

/-- A step of a writer is as many writes of the model as it publishes transactions. -/
theorem Tracked.write {db : Database} {model : SnapshotIsolationModel Datom}
    {past : List TxReceipt} {state : Readers ι} {shown : SnapshotIsolationState Datom}
    (h : Tracked db model past state shown) {action : Action ι} {new : List TxReceipt}
    (hnew : new = (state.writers.publication action).elim [] Prod.fst)
    (hepochs : state.writers.db.current.epoch.toNat + new.length ≤ model.maxEpochs)
    (hwrites : past.length + new.length ≤ model.maxWrites)
    (hdomain : ∀ receipt ∈ new, ∀ d ∈ receipt.datoms, d ∈ model.domain) :
    ∃ next, model.checked.Steps shown next ∧
      Tracked db model (past ++ new) (state.step (.write action)) next := by
  obtain ⟨published, hinv⟩ := h.inv
  obtain ⟨txIds, hstepped⟩ := hinv.step action
  have hcommits := hstepped.commits
  have hstamped := hstepped.stamped
  rw [← hnew] at hcommits hstamped
  have hcommitted := h.commits.append hcommits
  obtain ⟨epoch, schema, hstamps, hobs⟩ := hcommits
  have hepoch : (state.writers.step action).db.current.epoch = epoch :=
    congrArg Observation.epoch hobs
  have hfold := foldl_commit hstamps h.shows.epoch
  have hlists : ∀ ids ∈ new.map fun receipt => receipt.datoms.toFinset,
      ids.Nonempty ∧ ∀ d ∈ ids, d ∈ model.domain := by
    intro ids hids
    obtain ⟨receipt, hreceipt, rfl⟩ := List.mem_map.mp hids
    refine ⟨?_, fun d hd => hdomain receipt hreceipt d (List.mem_toFinset.mp hd)⟩
    obtain ⟨txId, -, hne, -⟩ := exists_of_forall₂ hstamped hreceipt
    exact List.toFinset_nonempty_iff _ |>.mpr hne
  obtain ⟨hsteps, hwithin⟩ := SnapshotIsolationModel.steps_commits h.within h.shows.pending
    (by rw [List.length_map, h.shows.epoch]; exact hepochs)
    (by rw [List.length_map, h.shows.writes]; exact hwrites) hlists
  rw [hfold] at hsteps hwithin
  refine ⟨_, hsteps, ⟨_, hstepped.inv⟩, hcommitted, ⟨?_, ?_, h.shows.captured, h.shows.recorded,
    h.shows.pending, ?_⟩, hwithin⟩
  · show epoch.toNat = (state.writers.step action).db.current.epoch.toNat
    rw [hepoch]
  · show new.foldl _ shown.datomsByEpoch = filed (past ++ new)
    rw [h.shows.filed, filed, filed, List.foldl_append]
  · show shown.totalWrites + new.length = (past ++ new).length
    rw [h.shows.writes, List.length_append]

/-- A run within the room of the model is a run of the model. -/
theorem Tracked.run {db : Database} (hempty : db.current.datomSet = ∅)
    {model : SnapshotIsolationModel Datom} {past : List TxReceipt} {state : Readers ι}
    {shown : SnapshotIsolationState Datom} (h : Tracked db model past state shown)
    {actions : List (ReadersAction ι)} (hroom : Room model past state actions) :
    ∃ next, model.checked.Steps shown next ∧
      Tracked db model (past ++ state.receipts actions) (state.run actions) next := by
  induction actions generalizing past state shown with
  | nil =>
      refine ⟨shown, .refl shown, ?_⟩
      show Tracked db model (past ++ []) state shown
      rw [List.append_nil]
      exact h
  | cons action rest ih =>
      cases action with
      | read reader =>
          have hreads : state.snapshots.length +
              (rest.filterMap ReadersAction.read?).length + 1 ≤ model.maxReaders := hroom.reads
          obtain ⟨next, hstep, htracked⟩ := h.read hempty (by omega)
            (hroom.readers reader List.mem_cons_self)
          have hrest : Room model past (state.step (.read reader)) rest := by
            refine ⟨hroom.epochs, hroom.writes, hroom.domain, ?_, fun other hother =>
              hroom.readers other (List.mem_cons_of_mem _ hother)⟩
            show (state.snapshots ++ [_]).length + _ ≤ model.maxReaders
            rw [List.length_append, List.length_singleton]
            omega
          obtain ⟨last, hsteps, hlast⟩ := ih htracked hrest
          exact ⟨last, hstep.trans hsteps, hlast⟩
      | write action =>
          have hreceipts : state.receipts (.write action :: rest) =
              (state.writers.publication action).elim [] Prod.fst ++
                (state.step (.write action)).receipts rest :=
            Writers.receipts_cons state.writers action _
          obtain ⟨hepochs, hwrites, hdomain, hreads, hreaders⟩ := hroom
          rw [hreceipts] at hepochs hwrites hdomain ⊢
          rw [List.length_append] at hepochs hwrites
          obtain ⟨next, hstep, htracked⟩ := h.write rfl (by omega) (by omega)
            fun receipt hreceipt => hdomain receipt (List.mem_append_left _ hreceipt)
          have hepoch : (state.step (.write action)).writers.db.current.epoch.toNat =
              state.writers.db.current.epoch.toNat +
                ((state.writers.publication action).elim [] Prod.fst).length := by
            obtain ⟨published, hinv⟩ := h.inv
            obtain ⟨txIds, hstepped⟩ := hinv.step action
            obtain ⟨epoch, schema, hstamps, hobs⟩ := hstepped.commits
            rw [show (state.step (.write action)).writers.db.current.epoch = epoch from
              congrArg Observation.epoch hobs]
            exact hstamps.toNat_epoch
          have hrest : Room model (past ++ (state.writers.publication action).elim [] Prod.fst)
              (state.step (.write action)) rest := by
            refine ⟨by omega, ?_, fun receipt hreceipt =>
              hdomain receipt (List.mem_append_right _ hreceipt), hreads, hreaders⟩
            rw [List.length_append]
            omega
          obtain ⟨last, hsteps, hlast⟩ := ih htracked hrest
          rw [← List.append_assoc]
          exact ⟨last, hstep.trans hsteps, hlast⟩

/-- A run of writers and readers on a new database is a run of the model of snapshot isolation,
within the bounds that the run needs. -/
theorem readers_refine (attached : Option Log) (actions : List (ReadersAction ι)) :
    ∃ shown, (bounds (Database.build Store.genesis attached) actions).checked.Reachable shown ∧
      Shows (bounds (Database.build Store.genesis attached) actions).maxReaders
        ((start (Database.build Store.genesis attached) : Readers ι).receipts actions)
        ((start (Database.build Store.genesis attached)).run actions) shown := by
  let db : Database := Database.build Store.genesis attached
  let model := bounds db actions
  let shown : SnapshotIsolationState Datom :=
    ⟨0, ∅, [], none, 0, false, List.replicate model.maxReaders []⟩
  have hwithin : model.Within shown := by
    refine ⟨Nat.zero_le _, Nat.zero_le _, Nat.zero_le _, fun entry hentry => ?_, ?_⟩
    · have hfiled := OrdMap.mem_toList.mp hentry
      simp [shown] at hfiled
    · intro history hhistory
      rw [List.eq_of_mem_replicate hhistory]
      exact Nat.zero_le _
  have hreachable : model.checked.Reachable shown :=
    .init (List.mem_singleton.mpr rfl) (SnapshotIsolationModel.withinBoundary_iff.mpr hwithin)
  have hshows : Shows model.maxReaders [] (start db : Readers ι) shown := by
    refine ⟨rfl, rfl, rfl, ?_, rfl, rfl⟩
    rw [show (start db : Readers ι).snapshots = [] from rfl]
    simp [shown, List.map_const']
  have htracked : Tracked db model [] (start db : Readers ι) shown :=
    ⟨⟨[], Writers.inv_start db⟩, Commits.refl _, hshows, hwithin⟩
  have hroom : Room model [] (start db : Readers ι) actions := by
    refine ⟨Nat.le_of_eq (Nat.zero_add _), Nat.le_of_eq (Nat.zero_add _), ?_, ?_, ?_⟩
    · intro receipt hreceipt d hd
      exact List.mem_flatMap.mpr ⟨receipt, hreceipt, hd⟩
    · show 0 + (actions.filterMap ReadersAction.read?).length ≤
        (actions.filterMap ReadersAction.read?).length +
          (actions.filterMap ReadersAction.read?).sum + 1
      omega
    · intro reader hreader
      have hle := List.le_sum_of_mem hreader
      show reader < (actions.filterMap ReadersAction.read?).length +
        (actions.filterMap ReadersAction.read?).sum + 1
      omega
  obtain ⟨last, hsteps, hlast⟩ := htracked.run Store.datomSet_genesis hroom
  exact ⟨last, hreachable.steps hsteps, hlast.shows⟩

end Readers

end Runs

end Ferratomic
