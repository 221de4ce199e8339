import Ferratomic.Checker.TransactionAtomicity
import Ferratomic.Db.Crash

/-!
# Crashes in the model of transaction atomicity

A database with its writers, readers and crashes is a run of the checker's model of transaction
atomicity: a transaction of the model is one that a client wrote, a snapshot of the model is one
that a reader took, and recovery replays the log. The main theorem is `crashes_refine`.
-/

namespace Ferratomic

open Lib Checker

/-- The transaction of a receipt, as the model commits it. -/
def TxReceipt.committedTx (receipt : TxReceipt) : CommittedTx Datom :=
  ⟨receipt.epoch.toNat, receipt.datoms.toFinset⟩

section Atomicity

variable [Blake3]

/-- The receipts that a new store has committed are numbered by their epochs. -/
theorem numbered_of_commits {history : List TxReceipt} {store : Store}
    (h : Commits Store.genesis.obs history store.obs) :
    history.map (·.epoch.toNat) = List.range' 1 history.length ∧
      store.epoch.toNat = history.length := by
  obtain ⟨epoch, schema, hstamps, hobs⟩ := h
  have hepoch : store.epoch = epoch := congrArg Observation.epoch hobs
  refine ⟨hstamps.map_epoch, ?_⟩
  rw [hepoch, hstamps.toNat_epoch]
  exact Nat.zero_add _

/-- All that is committed is visible at the last epoch. -/
theorem visible_of_commits {history : List TxReceipt} {store : Store}
    (h : Commits Store.genesis.obs history store.obs) :
    visibleAtEpoch (history.map TxReceipt.committedTx) history.length = store.datomSet := by
  obtain ⟨hnumbered, -⟩ := numbered_of_commits h
  ext d
  show _ ↔ d ∈ store.obs.datomSet
  rw [h.mem_datomSet, mem_visibleAtEpoch]
  constructor
  · intro hd
    obtain ⟨tx, htx, -, hid⟩ := hd
    obtain ⟨receipt, hreceipt, rfl⟩ := List.mem_map.mp htx
    exact .inr ⟨receipt, hreceipt, List.mem_toFinset.mp hid⟩
  · intro hd
    rcases hd with hgenesis | ⟨receipt, hreceipt, hmem⟩
    · have hempty : d ∈ Store.genesis.datomSet := hgenesis
      rw [Store.datomSet_genesis] at hempty
      exact absurd hempty (Finset.notMem_empty d)
    · refine ⟨receipt.committedTx, List.mem_map_of_mem hreceipt, ?_, List.mem_toFinset.mpr hmem⟩
      have hepoch :=
        List.mem_map_of_mem (f := fun receipt : TxReceipt => receipt.epoch.toNat) hreceipt
      rw [hnumbered, List.mem_range'_1] at hepoch
      show receipt.epoch.toNat ≤ history.length
      omega

/-- A snapshot, as the model takes it. -/
def Snapshot.view (snapshot : Snapshot) : SnapshotView Datom :=
  ⟨snapshot.epoch.toNat, snapshot.datoms.iter.toFinset⟩

/-- The state of the model for a history and the snapshots that were taken since the last recovery.
The model takes no snapshot before the first commit. -/
def shown (history : List TxReceipt) (snapshots : List (Nat × Snapshot)) :
    TxAtomicityState Datom where
  committedTxns := history.map TxReceipt.committedTx
  snapshots := (snapshots.filter fun taken => 0 < taken.2.epoch).map fun taken => taken.2.view
  currentEpoch := history.length + 1
  pendingTx := none
  crashed := false
  durableWal := history.map TxReceipt.committedTx

/-- A model whose bounds leave room for a history and a number of snapshots. -/
structure Admits (model : TxAtomicityModel Datom) (history : List TxReceipt) (reads : Nat) :
    Prop where
  transactions : history.length ≤ model.maxTransactions
  epochs : history.length ≤ model.maxEpoch
  domain : ∀ receipt ∈ history, receipt.datoms.toFinset ∈ model.datomDomain
  snapshots : reads ≤ model.maxSnapshots

omit [Blake3] in
/-- A model with room for a history has room for its start. -/
theorem Admits.left {model : TxAtomicityModel Datom} {history more : List TxReceipt} {reads : Nat}
    (h : Admits model (history ++ more) reads) : Admits model history reads := by
  obtain ⟨htransactions, hepochs, hdomain, hsnapshots⟩ := h
  rw [List.length_append] at htransactions hepochs
  exact ⟨by omega, by omega, fun receipt hreceipt =>
    hdomain receipt (List.mem_append_left _ hreceipt), hsnapshots⟩

omit [Blake3] in
/-- A model with room for some reads has room for fewer. -/
theorem Admits.fewer {model : TxAtomicityModel Datom} {history : List TxReceipt} {reads less : Nat}
    (h : Admits model history reads) (hless : less ≤ reads) : Admits model history less :=
  ⟨h.transactions, h.epochs, h.domain, hless.trans h.snapshots⟩

/-- What a model has room for is within its boundary. -/
theorem Admits.withinBoundary {model : TxAtomicityModel Datom} {history : List TxReceipt}
    {snapshots : List (Nat × Snapshot)} (h : Admits model history snapshots.length) :
    model.withinBoundary (shown history snapshots) = true := by
  refine TxAtomicityModel.withinBoundary_iff.mpr ⟨?_, ?_, ?_, ?_⟩
  · rw [shown, List.length_map]
    exact h.transactions
  · rw [shown, List.length_map]
    exact (List.length_filter_le _ _).trans h.snapshots
  · exact Nat.le_succ_of_le (Nat.succ_le_succ h.epochs)
  · rw [shown, List.length_map]
    exact h.transactions

/-- Receipts are committed by the model one after another. -/
theorem steps_receipts {model : TxAtomicityModel Datom} {past new : List TxReceipt}
    {snapshots : List (Nat × Snapshot)}
    (hnumbered : (past ++ new).map (·.epoch.toNat) = List.range' 1 (past ++ new).length)
    (hroom : Admits model (past ++ new) snapshots.length) :
    model.checked.Steps (shown past snapshots) (shown (past ++ new) snapshots) := by
  induction new generalizing past with
  | nil =>
      rw [List.append_nil]
      exact .refl _
  | cons receipt rest ih =>
      have hsplit : past ++ receipt :: rest = (past ++ [receipt]) ++ rest := by simp
      have hepoch : receipt.epoch.toNat = past.length + 1 := by
        have hget := congrArg (fun epochs => epochs[past.length]?) hnumbered
        simp only [List.map_append, List.map_cons, List.length_append, List.length_cons] at hget
        rw [List.getElem?_append_right (by rw [List.length_map]), List.length_map, Nat.sub_self,
          List.getElem?_range' (by omega)] at hget
        have hvalue := Option.some.inj hget
        omega
      rw [hsplit] at hnumbered hroom ⊢
      refine .trans ?_ (ih hnumbered hroom)
      have htransactions := hroom.transactions
      have hepochs := hroom.epochs
      simp only [List.length_append, List.length_singleton] at htransactions hepochs
      have hlength : (past.map TxReceipt.committedTx).length < model.maxTransactions := by
        rw [List.length_map]
        omega
      have hreads : (shown past snapshots).snapshots.length ≤ model.maxSnapshots := by
        rw [shown, List.length_map]
        exact (List.length_filter_le _ _).trans hroom.snapshots
      have hnext : shown (past ++ [receipt]) snapshots = { shown past snapshots with
          committedTxns := (shown past snapshots).committedTxns ++ [receipt.committedTx]
          currentEpoch := (shown past snapshots).currentEpoch + 1
          durableWal := (shown past snapshots).durableWal ++ [receipt.committedTx] } := by
        simp [shown]
      rw [hnext]
      refine TxAtomicityModel.steps_commit rfl rfl
        (hroom.domain receipt ?_) hepoch ?_ hlength hlength hreads
      · exact List.mem_append_left _ (List.mem_append_right _ (List.mem_singleton.mpr rfl))
      · show past.length + 1 ≤ model.maxEpoch
        omega

/-- A snapshot is one step of the model, unless nothing is committed. -/
theorem steps_snapshot {model : TxAtomicityModel Datom} {history : List TxReceipt}
    {snapshots : List (Nat × Snapshot)} {db : Database}
    (h : Commits Store.genesis.obs history db.current.obs) (reader : Nat)
    (hroom : Admits model history (snapshots.length + 1)) :
    model.checked.Steps (shown history snapshots)
      (shown history (snapshots ++ [(reader, db.snapshot)])) := by
  have hepoch := (numbered_of_commits h).2
  have hfilter : (snapshots ++ [(reader, db.snapshot)]).filter (fun taken => 0 < taken.2.epoch) =
      snapshots.filter (fun taken => 0 < taken.2.epoch) ++
        if 0 < db.current.epoch then [(reader, db.snapshot)] else [] := by
    rw [List.filter_append, List.filter_singleton]
    by_cases hpositive : 0 < db.current.epoch
    · simp [Database.snapshot, hpositive]
    · simp [Database.snapshot, hpositive]
  cases history with
  | nil =>
      have hzero : ¬ 0 < db.current.epoch := by
        rw [UInt64.lt_iff_toNat_lt, hepoch]
        exact Nat.lt_irrefl 0
      rw [if_neg hzero, List.append_nil] at hfilter
      rw [shown, shown, hfilter]
      exact .refl _
  | cons first rest =>
      have hpositive : 0 < db.current.epoch := by
        rw [UInt64.lt_iff_toNat_lt, hepoch]
        exact Nat.succ_pos _
      rw [if_pos hpositive] at hfilter
      have hview : db.snapshot.view = ⟨(first :: rest).length + 1 - 1,
          visibleAtEpoch ((first :: rest).map TxReceipt.committedTx)
            ((first :: rest).length + 1 - 1)⟩ := by
        rw [Nat.add_sub_cancel, visible_of_commits h, Snapshot.view, Database.snapshot,
          Store.epoch_snapshot, hepoch, Store.iter_snapshot, Store.toFinset_datoms]
      have hnext : shown (first :: rest) (snapshots ++ [(reader, db.snapshot)]) =
          { shown (first :: rest) snapshots with
            snapshots := (shown (first :: rest) snapshots).snapshots ++ [db.snapshot.view] } := by
        simp only [shown, hfilter, List.map_append, List.map_singleton]
      rw [hnext, hview]
      refine TxAtomicityModel.steps_takeSnapshot rfl (List.cons_ne_nil _ _) ?_
        (hroom.fewer (Nat.le_succ _)).withinBoundary
      show ((snapshots.filter _).map _).length < model.maxSnapshots
      rw [List.length_map]
      exact Nat.lt_of_le_of_lt (List.length_filter_le _ _) hroom.snapshots

section Lives

variable [Bincode] {ι : Type} [DecidableEq ι]

/-- A life is a run of the model: what is published is committed, and what readers take is seen. -/
theorem Readers.steps_run {model : TxAtomicityModel Datom} {past : List TxReceipt}
    {state : Readers ι} {published : List TxId} (hinv : state.writers.Inv published)
    (hcommits : Commits Store.genesis.obs past state.writers.db.current.obs)
    {actions : List (ReadersAction ι)}
    (hroom : Admits model (past ++ state.receipts actions)
      (state.snapshots.length + (actions.filterMap ReadersAction.read?).length)) :
    model.checked.Steps (shown past state.snapshots)
      (shown (past ++ state.receipts actions) (state.run actions).snapshots) := by
  induction actions generalizing past state published with
  | nil =>
      show model.checked.Steps _ (shown (past ++ []) state.snapshots)
      rw [List.append_nil]
      exact .refl _
  | cons action rest ih =>
      cases action with
      | read reader =>
          have hread : state.snapshots.length + 1 ≤
              state.snapshots.length + (rest.filterMap ReadersAction.read?).length + 1 := by omega
          have hfirst := steps_snapshot hcommits reader (hroom.left.fewer hread)
          have hrest := @ih past (state.step (.read reader)) published hinv hcommits
          refine hfirst.trans (hrest (hroom.fewer ?_))
          show (state.snapshots ++ [_]).length + _ ≤ _ + (_ + 1)
          rw [List.length_append, List.length_singleton]
          omega
      | write action =>
          obtain ⟨txIds, hstepped⟩ := hinv.step action
          have hreceipts : state.receipts (.write action :: rest) =
              (state.writers.publication action).elim [] Prod.fst ++
                (state.step (.write action)).receipts rest :=
            Writers.receipts_cons state.writers action _
          have hnext := hcommits.append hstepped.commits
          rw [hreceipts, ← List.append_assoc] at hroom ⊢
          have hrest := @ih _ (state.step (.write action)) _ hstepped.inv hnext
          exact (steps_receipts (numbered_of_commits hnext).1
            (hroom.left.fewer (Nat.le_add_right _ _))).trans (hrest hroom)

/-- What a crash and a recovery are to the model: transactions that were logged and not published
are committed, the process crashes and replays the log. If nothing was ever logged, there is nothing
to lose. -/
inductive Crashes (model : TxAtomicityModel Datom) :
    TxAtomicityState Datom → TxAtomicityState Datom → Prop
  | unlogged (state : TxAtomicityState Datom) : state.durableWal = [] → Crashes model state state
  | logged {before committed crashed after : TxAtomicityState Datom} :
      model.checked.Steps before committed → model.checked.Steps committed crashed →
      crashed.crashed = true → model.checked.Steps crashed after → Crashes model before after

omit [Bincode] in
/-- After a crash the model shows all that the log holds, and no snapshots. -/
theorem crashes_shown {model : TxAtomicityModel Datom} {past more : List TxReceipt}
    {snapshots : List (Nat × Snapshot)}
    (hreachable : model.checked.Reachable (shown past snapshots))
    (hupto : ∀ taken ∈ snapshots, taken.2.epoch.toNat ≤ past.length)
    (hnumbered : (past ++ more).map (·.epoch.toNat) = List.range' 1 (past ++ more).length)
    (hroom : Admits model (past ++ more) snapshots.length) :
    Crashes model (shown past snapshots) (shown (past ++ more) []) := by
  have hsteps := steps_receipts hnumbered hroom
  cases hwhole : past ++ more with
  | nil =>
      -- without a commit there is no snapshot that the model has taken
      obtain ⟨rfl, rfl⟩ := List.append_eq_nil_iff.mp hwhole
      have hnone : snapshots.filter (fun taken => 0 < taken.2.epoch) = [] := by
        refine List.filter_eq_nil_iff.mpr fun taken htaken => ?_
        rw [decide_eq_true_eq, UInt64.lt_iff_toNat_lt]
        exact Nat.not_lt_of_le (hupto taken htaken)
      have hshown : shown [] snapshots = shown [] [] := by
        rw [shown, hnone]
        rfl
      rw [hshown]
      exact .unlogged _ rfl
  | cons first rest =>
      rw [hwhole] at hsteps hroom
      have hinv := model.invariant_checked.always _ (hreachable.steps hsteps)
      obtain ⟨crashed, hcrashed, hcrash, hrecover⟩ := TxAtomicityModel.steps_crash hinv
        hroom.withinBoundary rfl rfl (List.cons_ne_nil _ _)
      exact .logged hsteps hcrash hcrashed hrecover

omit [Blake3] [Bincode] in
/-- A crash with its recovery leads to a state the checker visits. -/
theorem Crashes.reachable {model : TxAtomicityModel Datom} {before after : TxAtomicityState Datom}
    (h : Crashes model before after) (hreachable : model.checked.Reachable before) :
    model.checked.Reachable after := by
  cases h with
  | unlogged => exact hreachable
  | logged hcommitted hcrashed _ hafter =>
      exact ((hreachable.steps hcommitted).steps hcrashed).steps hafter

/-- A database holds what the model shows of a history. -/
structure Described (history : List TxReceipt) (db : Database) : Prop where
  epoch : db.current.epoch.toNat = history.length
  visible : visibleAtEpoch (history.map TxReceipt.committedTx) history.length = db.current.datomSet

omit [Bincode] in
/-- A history that commits from genesis describes the database. -/
theorem described_of_commits {history : List TxReceipt} {db : Database}
    (h : Commits Store.genesis.obs history db.current.obs) : Described history db :=
  ⟨(numbered_of_commits h).2, visible_of_commits h⟩

namespace Readers

/-- What a life of a database, a crash and the recovery are to the model. -/
structure Life (model : TxAtomicityModel Datom) (history : List TxReceipt) (db : Database)
    (actions : List (ReadersAction ι)) (more : List TxReceipt) : Prop where
  opened : model.checked.Reachable (shown history [])
  ran : model.checked.Steps (shown history [])
    (shown (history ++ (start db : Readers ι).receipts actions) ((start db).run actions).snapshots)
  crashed : Crashes model
    (shown (history ++ (start db : Readers ι).receipts actions) ((start db).run actions).snapshots)
    (shown (history ++ (start db : Readers ι).receipts actions ++ more) [])

/-- A run takes one snapshot for each read. -/
theorem length_snapshots_run (state : Readers ι) (actions : List (ReadersAction ι)) :
    (state.run actions).snapshots.length =
      state.snapshots.length + (actions.filterMap ReadersAction.read?).length := by
  induction actions generalizing state with
  | nil => rfl
  | cons action rest ih =>
      refine (ih (state.step action)).trans ?_
      cases action with
      | write action => rfl
      | read reader =>
          show (state.snapshots ++ [_]).length + _ = _ + (_ + 1)
          rw [List.length_append, List.length_singleton]
          omega

/-- The receipts of a run continue the history. -/
theorem commits_run {history : List TxReceipt} {db : Database}
    (h : Commits Store.genesis.obs history db.current.obs) (actions : List (ReadersAction ι)) :
    Commits Store.genesis.obs (history ++ (start db : Readers ι).receipts actions)
      ((start db : Readers ι).run actions).writers.db.current.obs := by
  obtain ⟨txIds, hran⟩ := (Writers.inv_start db : Writers.Inv [] (Writers.start db : Writers ι)).run
    (actions.filterMap ReadersAction.write?)
  rw [writers_run]
  exact h.append hran.commits

/-- A life from a state of the model that shows the database. -/
theorem life {model : TxAtomicityModel Datom} {history more : List TxReceipt}
    {db reopened : Database} {actions : List (ReadersAction ι)}
    (hopened : Commits Store.genesis.obs history db.current.obs)
    (hreopened : Commits Store.genesis.obs
      (history ++ (start db : Readers ι).receipts actions ++ more) reopened.current.obs)
    (hroom : Admits model (history ++ (start db : Readers ι).receipts actions ++ more)
      (actions.filterMap ReadersAction.read?).length)
    (hreachable : model.checked.Reachable (shown history [])) :
    Life model history db actions more := by
  have hinv := (Writers.inv_start db : Writers.Inv [] (Writers.start db : Writers ι))
  have hordered : (start db : Readers ι).Ordered :=
    ⟨.nil, fun taken htaken => absurd htaken List.not_mem_nil⟩
  have hepoch := (numbered_of_commits (commits_run hopened actions)).2
  have hlength : ((start db : Readers ι).run actions).snapshots.length =
      (actions.filterMap ReadersAction.read?).length :=
    (length_snapshots_run _ _).trans (Nat.zero_add _)
  have hran : model.checked.Steps (shown history (start db : Readers ι).snapshots) _ :=
    steps_run hinv hopened (hroom.left.fewer (Nat.le_of_eq (Nat.zero_add _)))
  refine ⟨hreachable, hran, crashes_shown (hreachable.steps hran) (fun taken htaken => ?_)
    (numbered_of_commits hreopened).1 (hroom.fewer (Nat.le_of_eq hlength))⟩
  rw [← hepoch]
  exact UInt64.le_iff_toNat_le.mp ((hordered.run hinv actions).upto taken htaken)

omit [Blake3] [Bincode] [DecidableEq ι] in
/-- Writers' actions alone are the actions of the writers. -/
theorem filterMap_write (actions : List (Action ι)) :
    (actions.map ReadersAction.write).filterMap ReadersAction.write? = actions := by
  rw [List.filterMap_map]
  exact List.filterMap_some

omit [Blake3] [Bincode] [DecidableEq ι] in
/-- Writers' actions alone take no snapshot. -/
theorem filterMap_read (actions : List (Action ι)) :
    (actions.map ReadersAction.write).filterMap ReadersAction.read? = [] := by
  rw [List.filterMap_map]
  exact List.filterMap_eq_nil_iff.mpr fun _ _ => rfl

/-- The model follows all lives, one after another. -/
theorem reachable_shown (hfaithful : Bincode.Faithful)
    (hshort : ∀ datoms, given datoms → ShortAttrs datoms) {acked : List TxReceipt} {db : Database}
    (h : Writers.Survives given acked db) :
    ∃ history, Writers.Opened given history db ∧ acked.Sublist history ∧
      ∀ model, Admits model history 0 → model.checked.Reachable (shown history []) := by
  induction h with
  | created =>
      refine ⟨[], Writers.opened_genesisWithWal, .refl _, fun model hroom => ?_⟩
      have hempty : Admits model [] ([] : List (Nat × Snapshot)).length := hroom
      exact .init (List.mem_singleton.mpr rfl) hempty.withinBoundary
  | crashed _ hsound hcrash hrecovered ih =>
      rename_i acked db reopened actions file orders _
      obtain ⟨history, hopened, hsublist, hshown⟩ := ih
      obtain ⟨reopened, more, hrecover, hnext⟩ :=
        hopened.recover hfaithful hshort hsound hcrash _
      rw [hrecovered] at hrecover
      cases hrecover
      refine ⟨_, hnext, (hsublist.append_right _).trans (List.sublist_append_left _ _),
        fun model hroom => ?_⟩
      have hreceipts : (start db : Readers _).receipts (actions.map ReadersAction.write) =
          (Writers.start db).receipts actions := by
        rw [receipts, filterMap_write]
        rfl
      have hcommits : Commits Store.genesis.obs
          (history ++ (start db : Readers _).receipts (actions.map ReadersAction.write) ++ more)
          reopened.current.obs := by
        rw [hreceipts]
        exact hnext.commits
      have hlife : Life model history db (actions.map ReadersAction.write) more := by
        refine life hopened.commits hcommits ?_ (hshown model hroom.left.left)
        rw [hreceipts, filterMap_read]
        exact hroom
      have hreached := hlife.crashed.reachable (hlife.opened.steps hlife.ran)
      rw [hreceipts] at hreached
      exact hreached

/-- What the model of transaction atomicity shows of lives, of another one and of a crash. -/
structure CrashRefined (acked : List TxReceipt) (db : Database) (actions : List (ReadersAction ι))
    (history more : List TxReceipt) (reopened : Database) : Prop where
  acked : (acked ++ (start db : Readers ι).receipts actions).Sublist
    (history ++ (start db : Readers ι).receipts actions ++ more)
  opened : Described history db
  ran : Described (history ++ (start db : Readers ι).receipts actions)
    ((start db : Readers ι).run actions).writers.db
  reopened : Described (history ++ (start db : Readers ι).receipts actions ++ more) reopened
  /-- Every model with room for them goes through the same states. -/
  life : ∀ model, Admits model (history ++ (start db : Readers ι).receipts actions ++ more)
    (actions.filterMap ReadersAction.read?).length → Life model history db actions more

/-- Whatever any number of lives have left behind, another life of writers and readers, its crash at
any step and the recovery are a run of the model of transaction atomicity. -/
theorem crashes_refine (hfaithful : Bincode.Faithful)
    (hshort : ∀ datoms, given datoms → ShortAttrs datoms) {acked : List TxReceipt} {db : Database}
    (h : Writers.Survives given acked db) {actions : List (ReadersAction ι)}
    (hsound : ∀ action ∈ actions.filterMap ReadersAction.write?, Writers.SoundAction given action)
    {file : Bytes} (hcrash : Writers.Leaves ((start db).run actions).writers file)
    (orders : Nat → IterOrder) :
    ∃ history more reopened, Database.recoverFromWal orders file = .ok reopened ∧
      CrashRefined acked db actions history more reopened := by
  obtain ⟨history, hopened, hsublist, hshown⟩ := reachable_shown hfaithful hshort h
  rw [writers_run] at hcrash
  obtain ⟨reopened, more, hrecover, hnext⟩ :=
    hopened.recover hfaithful hshort hsound hcrash orders
  refine ⟨history, more, reopened, hrecover,
    (hsublist.append_right _).trans (List.sublist_append_left _ _),
    described_of_commits hopened.commits,
    described_of_commits (commits_run hopened.commits actions),
    described_of_commits hnext.commits, fun model hroom => ?_⟩
  exact life hopened.commits hnext.commits hroom
    (hshown model (hroom.left.left.fewer (Nat.zero_le _)))

end Readers

end Lives

end Atomicity

open Sample

/-- A reader takes a snapshot before the process stops behind the log. -/
theorem Readers.crashes_refine_document : ∃ history more reopened,
    Database.recoverFromWal (fun _ => .arrival) fileLeft = .ok reopened ∧
      CrashRefined [] Database.genesisWithWal
        (logged.map .write ++ [ReadersAction.read 0]) history more reopened := by
  have hwrites : (logged.map ReadersAction.write ++ [ReadersAction.read 0]).filterMap
      ReadersAction.write? = logged := by
    rw [List.filterMap_append, filterMap_write]
    exact List.append_nil _
  refine crashes_refine Bincode.faithful_reference shortAttrs_of_document .created ?_ ?_ _
  · rw [hwrites]
    exact sound_logged
  · rw [writers_run, hwrites]
    exact leaves_fileLeft

end Ferratomic
