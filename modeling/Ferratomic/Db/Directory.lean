import Ferratomic.Db.History

/-!
# A data directory across crashes

A data directory holds a log and a checkpoint. While clients write, checkpoints of the published
store are written to a temporary file that takes the place of the old checkpoint by a rename. The
process stops at any step, also between the rename and the sync of the directory, and a cold start
opens what is left, any number of times. The main theorem, `cold_starts_recover`, says that a cold
start never falls back to an empty database and loses nothing that was published, whichever
checkpoint the crash has left.
-/

namespace Ferratomic

open Lib

section Serving

variable [Blake3]

/-- The stores that a call works on. -/
def Phase.Works (P : Store → Prop) : Phase → Prop
  | loaded _ _ _ store => P store
  | logging _ _ _ store _ => P store
  | _ => True

/-- Applying a ticket leads from a reachable store to one. -/
theorem Ticket.reachable_apply {ticket : Ticket} {env : Env} {frontier : Frontier}
    {store next : Store} {receipts : List TxReceipt} {advance : Option TxId}
    (hstore : store.Reachable)
    (h : ticket.apply env frontier store = .ok (receipts, next, advance)) : next.Reachable := by
  cases ticket with
  | single transaction key txId =>
      unfold Ticket.apply at h
      simp only at h
      split at h
      case h_1 => cases h
      case h_2 receipt next' htransact =>
          cases h
          have hnext : _ = next := congrArg Prod.snd htransact
          rw [← hnext]
          exact hstore.transact _ _ _
  | batch batches =>
      unfold Ticket.apply at h
      simp only at h
      split at h
      case h_1 => cases h
      case h_2 receipts' next' hsplice =>
          cases h
          have hnext : _ = next := congrArg Prod.snd hsplice
          rw [← hnext]
          exact hstore.batchSpliceTransact _ _

variable [Bincode]

/-- The published store and those that calls work on stay reachable. -/
theorem Phase.reachable_advance {phase : Phase} (h : phase.Works Store.Reachable) {db : Database}
    (hcurrent : db.current.Reachable) :
    (phase.advance db).1.current.Reachable ∧ (phase.advance db).2.Works Store.Reachable := by
  fun_cases Phase.advance db phase with
  | case7 env ticket frontier store receipts next advance happly =>
      exact ⟨hcurrent, Ticket.reachable_apply h happly⟩
  | case8 env index receipts store advance receipt hentry e db' hwrite =>
      obtain ⟨result, attached, hsame⟩ :=
        db.writeWal_same (env.write index) (env.sync index) receipt
      rw [hwrite] at hsame
      cases hsame
      exact ⟨hcurrent, trivial⟩
  | case9 env index receipts store advance receipt hentry db' hwrite =>
      obtain ⟨result, attached, hsame⟩ :=
        db.writeWal_same (env.write index) (env.sync index) receipt
      rw [hwrite] at hsame
      cases hsame
      exact ⟨hcurrent, h⟩
  | case10 env index receipts store advance hentry => exact ⟨h, trivial⟩
  | case4 => exact ⟨hcurrent, hcurrent⟩
  | case5 => exact ⟨hcurrent, hcurrent⟩
  | case13 => exact ⟨hcurrent, h⟩
  | _ => exact ⟨hcurrent, trivial⟩

namespace Writers

variable {ι : Type} [DecidableEq ι]

/-- A step of the writers keeps their stores reachable. -/
theorem reachable_step {state : Writers ι} (hcurrent : state.db.current.Reachable)
    (hworks : ∀ client, (state.phase client).Works Store.Reachable) (action : Action ι) :
    (state.step action).db.current.Reachable ∧
      ∀ client, ((state.step action).phase client).Works Store.Reachable := by
  have hupdate {next : Writers ι} {client : ι} {later : Phase}
      (hphase : next.phase = Function.update state.phase client later)
      (hlater : later.Works Store.Reachable) (other : ι) :
      (next.phase other).Works Store.Reachable := by
    rw [hphase]
    by_cases hown : other = client
    · rw [hown, Function.update_self]
      exact hlater
    · rw [Function.update_of_ne hown]
      exact hworks other
  cases action with
  | begin client call env =>
      rcases step_begin state client call env with hstep | hstep
      · rw [hstep]
        exact ⟨hcurrent, hworks⟩
      · rw [hstep.db]
        refine ⟨hcurrent, hupdate hstep.phase ?_⟩
        fun_cases Call.enter env call with
        | case1 => trivial
        | case2 => trivial
  | register client filter =>
      rcases step_register state client filter with hstep | hstep
      · rw [hstep]
        exact ⟨hcurrent, hworks⟩
      · rw [hstep.db]
        exact ⟨hcurrent, hupdate hstep.phase trivial⟩
  | advance client =>
      have hadvance := Phase.reachable_advance (hworks client) hcurrent
      rw [Writers.step]
      cases hphase : state.phase client with
      | done result => exact ⟨hcurrent, hworks⟩
      | entered call env =>
          refine ⟨hcurrent, hupdate rfl ?_⟩
          split
          · trivial
          · trivial
      | slotted call env =>
          cases state.owner with
          | none => exact ⟨hcurrent, hupdate rfl trivial⟩
          | some owner => exact ⟨hcurrent, hupdate rfl trivial⟩
      | overLimit => exact ⟨hcurrent, hupdate rfl trivial⟩
      | unlocking result => exact ⟨hcurrent, hupdate rfl trivial⟩
      | releasing result =>
          refine ⟨hcurrent, hupdate rfl ?_⟩
          fun_cases Phase.released result with
          | case1 => trivial
          | case2 => trivial
      | notifying receipts => exact ⟨hcurrent, hupdate rfl trivial⟩
      | waiting access =>
          cases state.notifier with
          | none => exact ⟨hcurrent, hupdate rfl trivial⟩
          | some other => exact ⟨hcurrent, hworks⟩
      | delivering access => exact ⟨hcurrent, hupdate rfl trivial⟩
      | _ =>
          rw [hphase] at hadvance
          exact ⟨hadvance.1, hupdate rfl hadvance.2⟩

end Writers

/-- `Database::store_for_checkpoint` -/
def Database.storeForCheckpoint (db : Database) : Store :=
  db.current

/-- A database in use and the checkpoint file of its data directory: the one that the directory has
on disk, those that were renamed to its place since, the last first, and the temporary file. One
checkpoint is written at a time. -/
structure Serving (ι : Type) where
  writers : Writers ι
  checkpoint : Option Bytes
  renamed : List Bytes
  temp : Option Bytes

/-- A step of a client, or one of a checkpoint: `write_checkpoint` writes and syncs a temporary
file, renames it and syncs the directory, and each can fail. -/
inductive ServeAction (ι : Type) where
  | client (action : Action ι)
  | writeTemp
  | rename
  | syncDir
  | giveUp

/-- The step of a client. -/
def ServeAction.client? {ι : Type} : ServeAction ι → Option (Action ι)
  | client action => some action
  | _ => none

namespace Serving

variable {ι : Type} [DecidableEq ι]

/-- A database that is opened with a checkpoint in its directory. -/
def start (db : Database) (checkpoint : Option Bytes) : Serving ι :=
  ⟨.start db, checkpoint, [], none⟩

/-- One step. -/
def step (state : Serving ι) : ServeAction ι → Serving ι
  | .client action => { state with writers := state.writers.step action }
  | .writeTemp =>
      match serializeCheckpointBytes .v3
        (extractCheckpointData state.writers.db.storeForCheckpoint) with
      | .ok bytes => { state with temp := some bytes }
      | .error _ => { state with temp := none }
  | .rename =>
      match state.temp with
      | some bytes => { state with renamed := bytes :: state.renamed, temp := none }
      | none => state
  | .syncDir =>
      match state.renamed with
      | last :: _ => { state with checkpoint := some last, renamed := [] }
      | [] => state
  | .giveUp => { state with temp := none }

/-- The state after a sequence of actions. -/
def run (state : Serving ι) : List (ServeAction ι) → Serving ι
  | [] => state
  | action :: rest => (state.step action).run rest

/-- The receipts that a sequence of actions publishes. -/
def receipts (state : Serving ι) (actions : List (ServeAction ι)) : List TxReceipt :=
  state.writers.receipts (actions.filterMap ServeAction.client?)

/-- Only the steps of clients change the writers. -/
theorem writers_step (state : Serving ι) (action : ServeAction ι) :
    (state.step action).writers = action.client?.elim state.writers state.writers.step := by
  cases action with
  | client action => rfl
  | writeTemp =>
      rw [step]
      split
      · rfl
      · rfl
  | rename =>
      rw [step]
      split
      · rfl
      · rfl
  | syncDir =>
      rw [step]
      split
      · rfl
      · rfl
  | giveUp => rfl

/-- The receipts of a run start with those of its first step. -/
theorem receipts_cons (state : Serving ι) (action : ServeAction ι) (rest : List (ServeAction ι)) :
    state.receipts (action :: rest) =
      (action.client?.bind state.writers.publication).elim [] Prod.fst ++
        (state.step action).receipts rest := by
  rw [receipts, receipts, writers_step]
  cases hclient : action.client? with
  | none =>
      rw [List.filterMap_cons_none hclient]
      rfl
  | some clientAction =>
      rw [List.filterMap_cons_some hclient, Writers.receipts_cons]
      rfl

/-- The writers of a run are those of a run of the clients alone. -/
theorem writers_run (state : Serving ι) (actions : List (ServeAction ι)) :
    (state.run actions).writers =
      state.writers.run (actions.filterMap ServeAction.client?) := by
  induction actions generalizing state with
  | nil => rfl
  | cons action rest ih =>
      rw [run, ih, writers_step]
      cases hclient : action.client? with
      | none =>
          rw [List.filterMap_cons_none hclient]
          rfl
      | some clientAction =>
          rw [List.filterMap_cons_some hclient]
          rfl

/-- What is asked of an action. -/
def SoundAction (given : List Datom → Prop) : ServeAction ι → Prop
  | .client action => Writers.SoundAction given action
  | _ => True

/-- The checkpoint files that there may be after a crash, and the temporary one. -/
def files (state : Serving ι) : List Bytes :=
  state.checkpoint.toList ++ state.renamed ++ state.temp.toList

/-- What a crash leaves in the data directory: the log, and the checkpoint of which the directory
was synced or one that was renamed to its place since. -/
structure Leaves (state : Serving ι) (dir : DataDir) : Prop where
  create : dir.createDirAll = .ok ()
  log : ∃ file, dir.wal = some file ∧ Writers.Leaves state.writers file
  checkpoint : dir.checkpoint = state.checkpoint ∨
    ∃ bytes ∈ state.renamed, dir.checkpoint = some bytes

/-- The directory when nothing is lost. -/
def left (state : Serving ι) : DataDir where
  createDirAll := .ok ()
  checkpoint := state.renamed.head?.or state.checkpoint
  wal := state.writers.db.wal.map Log.file
  createWal := .error (.io "AlreadyExists" "File exists (os error 17)")
  createNew _ h := by cases h

omit [DecidableEq ι] in
/-- What is left behind is a file that a crash may leave. -/
theorem leaves_left {state : Serving ι} {wal : Log} (hwal : state.writers.db.wal = some wal) :
    state.Leaves state.left := by
  refine ⟨rfl, ⟨wal.file, ?_, Writers.leaves_whole hwal⟩, ?_⟩
  · show state.writers.db.wal.map Log.file = _
    rw [hwal]
    rfl
  · show state.renamed.head?.or state.checkpoint = _ ∨ ∃ bytes ∈ _, state.renamed.head?.or _ = _
    cases state.renamed with
    | nil => exact .inl rfl
    | cons last rest => exact .inr ⟨last, List.mem_cons_self, rfl⟩

/-- The invariant of a database in use: its store carries the history, its log holds it, and every
checkpoint file carries an early part of it. -/
structure Kept (given : List Datom → Prop) (history : List TxReceipt) (state : Serving ι) :
    Prop where
  inv : ∃ published, state.writers.Inv published
  logged : ∃ extra, Writers.Logged given history extra state.writers
  carries : Carries history state.writers.db.current
  works : ∀ client, (state.writers.phase client).Works Store.Reachable
  files : ∀ bytes ∈ state.files, Checkpointed history bytes

omit [DecidableEq ι] in
/-- A database opened over what was kept keeps it. -/
theorem kept_start {given : List Datom → Prop} {history : List TxReceipt} {db : Database}
    {checkpoint : Option Bytes} (hlog : ∃ wal, db.wal = some wal ∧ LogFile history [] wal)
    (hstamped : ∀ receipt ∈ history, receipt.From given) (hcarries : Carries history db.current)
    (hcheckpoint : ∀ bytes, checkpoint = some bytes → Checkpointed history bytes) :
    Kept given history (start db checkpoint : Serving ι) := by
  refine ⟨⟨[], Writers.inv_start db⟩, ⟨[], Writers.logged_start hlog hstamped⟩, hcarries,
    fun _ => trivial, fun bytes hbytes => ?_⟩
  have hmem : bytes ∈ checkpoint.toList ++ [] ++ [] := hbytes
  rw [List.append_nil, List.append_nil, Option.mem_toList] at hmem
  exact hcheckpoint bytes hmem

omit [DecidableEq ι] in
/-- A step of a checkpoint leaves the writers, and adds at most a checkpoint of the published store
to the files. -/
theorem Kept.checkpoint {given : List Datom → Prop} {history : List TxReceipt}
    {state next : Serving ι} (h : Kept given history state)
    (hwriters : next.writers = state.writers)
    (hfiles : ∀ bytes ∈ next.files, bytes ∈ state.files ∨ Checkpointed history bytes) :
    Kept given history next := by
  refine ⟨?_, ?_, ?_, ?_, fun bytes hbytes => ?_⟩
  · rw [hwriters]
    exact h.inv
  · rw [hwriters]
    exact h.logged
  · rw [hwriters]
    exact h.carries
  · rw [hwriters]
    exact h.works
  · rcases hfiles bytes hbytes with hold | hnew
    · exact h.files bytes hold
    · exact hnew

omit [Bincode] [DecidableEq ι] in
/-- The checkpoint files of a state are the one in place, those renamed and the one being written.
-/
theorem mem_files {state : Serving ι} {bytes : Bytes} :
    bytes ∈ state.files ↔
      state.checkpoint = some bytes ∨ bytes ∈ state.renamed ∨ state.temp = some bytes := by
  rw [files, List.mem_append, List.mem_append, Option.mem_toList, Option.mem_toList, or_assoc]

/-- A step keeps the invariant. -/
theorem Kept.step (hfaithful : Bincode.Faithful) {given : List Datom → Prop}
    (hshort : ∀ datoms, given datoms → ShortAttrs datoms) {history : List TxReceipt}
    {state : Serving ι} (h : Kept given history state) {action : ServeAction ι}
    (hsound : SoundAction given action) :
    Kept given (history ++ (action.client?.bind state.writers.publication).elim [] Prod.fst)
      (state.step action) := by
  have hquiet (hclient : action.client? = none) :
      history ++ (action.client?.bind state.writers.publication).elim [] Prod.fst = history := by
    rw [hclient]
    exact List.append_nil history
  cases action with
  | client action =>
      obtain ⟨published, hinv⟩ := h.inv
      obtain ⟨extra, hlogged⟩ := h.logged
      obtain ⟨txIds, hstepped⟩ := hinv.step action
      obtain ⟨hcurrent, hworks⟩ := Writers.reachable_step h.carries.reachable h.works action
      exact ⟨⟨_, hstepped.inv⟩, hlogged.step hinv hsound,
        h.carries.commits hstepped.commits hcurrent, hworks,
        fun bytes hbytes => (h.files bytes hbytes).append _⟩
  | writeTemp =>
      rw [hquiet rfl, Serving.step]
      cases hserialize : serializeCheckpointBytes .v3
          (extractCheckpointData state.writers.db.storeForCheckpoint) with
      | error e =>
          refine h.checkpoint rfl fun bytes hbytes => .inl ?_
          rw [mem_files] at hbytes ⊢
          rcases hbytes with hold | hold | hnone
          · exact .inl hold
          · exact .inr (.inl hold)
          · cases hnone
      | ok written =>
          refine h.checkpoint rfl fun bytes hbytes => ?_
          rw [mem_files] at hbytes
          rcases hbytes with hold | hold | hnew
          · exact .inl (mem_files.mpr (.inl hold))
          · exact .inl (mem_files.mpr (.inr (.inl hold)))
          · -- the temporary file is a checkpoint of the published store
            cases hnew
            obtain ⟨extra, hlogged⟩ := h.logged
            refine .inr fun loaded hload => ⟨history, [], (List.append_nil _).symm, ?_⟩
            refine h.carries.load hfaithful (Writers.shortAttrs_of_from hshort ?_) hserialize hload
            exact fun receipt hreceipt => hlogged.stamped receipt (List.mem_append_left _ hreceipt)
  | rename =>
      rw [hquiet rfl, Serving.step]
      cases htemp : state.temp with
      | none => exact h
      | some written =>
          refine h.checkpoint rfl fun bytes hbytes => .inl ?_
          rw [mem_files] at hbytes ⊢
          rcases hbytes with hold | hold | hnone
          · exact .inl hold
          · rcases List.mem_cons.mp hold with hwritten | hold
            · rw [hwritten]
              exact .inr (.inr htemp)
            · exact .inr (.inl hold)
          · cases hnone
  | syncDir =>
      rw [hquiet rfl, Serving.step]
      cases hrenamed : state.renamed with
      | nil => exact h
      | cons last rest =>
          refine h.checkpoint rfl fun bytes hbytes => .inl ?_
          rw [mem_files] at hbytes ⊢
          rcases hbytes with hlast | hnone | hold
          · cases hlast
            rw [hrenamed]
            exact .inr (.inl List.mem_cons_self)
          · exact absurd hnone List.not_mem_nil
          · exact .inr (.inr hold)
  | giveUp =>
      rw [hquiet rfl, Serving.step]
      refine h.checkpoint rfl fun bytes hbytes => .inl ?_
      rw [mem_files] at hbytes ⊢
      rcases hbytes with hold | hold | hnone
      · exact .inl hold
      · exact .inr (.inl hold)
      · cases hnone

/-- A run keeps the invariant. -/
theorem Kept.run (hfaithful : Bincode.Faithful) {given : List Datom → Prop}
    (hshort : ∀ datoms, given datoms → ShortAttrs datoms) {history : List TxReceipt}
    {state : Serving ι} (h : Kept given history state) {actions : List (ServeAction ι)}
    (hsound : ∀ action ∈ actions, SoundAction given action) :
    Kept given (history ++ state.receipts actions) (state.run actions) := by
  induction actions generalizing history state with
  | nil =>
      show Kept given (history ++ []) state
      rw [List.append_nil]
      exact h
  | cons action rest ih =>
      obtain ⟨hfirst, hrest⟩ := List.forall_mem_cons.mp hsound
      rw [receipts_cons, ← List.append_assoc]
      exact ih (h.step hfaithful hshort hfirst) hrest

omit [DecidableEq ι] in
/-- A cold start on what a crash leaves gives a database that can be used as the one before. -/
theorem Kept.coldStart (hfaithful : Bincode.Faithful) {given : List Datom → Prop}
    (hshort : ∀ datoms, given datoms → ShortAttrs datoms) {history : List TxReceipt}
    {state : Serving ι} (h : Kept given history state) {dir : DataDir} (hleaves : state.Leaves dir)
    (orders orders' : Nat → IterOrder) :
    ∃ result more, Ferratomic.coldStart orders orders' dir = .ok result ∧
      result.level ≠ .genesis ∧ Carries (history ++ more) result.database.current ∧
      (∀ receipt ∈ history ++ more, receipt.From given) ∧
      (∃ wal, result.database.wal = some wal ∧ LogFile (history ++ more) [] wal) ∧
      ∀ bytes, dir.checkpoint = some bytes → Checkpointed (history ++ more) bytes := by
  obtain ⟨published, hinv⟩ := h.inv
  obtain ⟨extra, hlogged⟩ := h.logged
  obtain ⟨file, hwal, hfile⟩ := hleaves.log
  obtain ⟨more, epoch, schema, hchain, hmore, hlogs, hlog⟩ :=
    hlogged.reopen hinv h.carries.stamps hfile
  have hgiven : ∀ receipt ∈ history ++ more, receipt.From given := List.forall_mem_append.mpr
    ⟨fun receipt hreceipt => hlogged.stamped receipt (List.mem_append_left _ hreceipt), hmore⟩
  have hcheckpoint : ∀ bytes, dir.checkpoint = some bytes →
      Checkpointed (history ++ more) bytes := by
    intro bytes hbytes
    refine (h.files bytes (mem_files.mpr ?_)).append more
    rcases hleaves.checkpoint with hsame | ⟨renamed, hrenamed, hsame⟩
    · exact .inl (hsame.symm.trans hbytes)
    · rw [hbytes] at hsame
      cases hsame
      exact .inr (.inl hrenamed)
  obtain ⟨result, hresult, hlevel, hattached, hcarries⟩ := coldStart_carries hfaithful
    (h.carries.stamps.append hchain) (Writers.shortAttrs_of_from hshort hgiven) hleaves.create hwal
    hlogs hcheckpoint orders orders'
  exact ⟨result, more, hresult, hlevel, hcarries, hgiven, ⟨_, hattached, hlog⟩, hcheckpoint⟩

/-- The databases that cold starts open, with the checkpoint in the directory and the receipts that
were published in all lives before. The first directory is empty. -/
inductive Reopens (given : List Datom → Prop) : List TxReceipt → Database → Option Bytes → Prop
  | created {dir : DataDir} {orders orders' : Nat → IterOrder} {result : ColdStartResult} :
      dir.checkpoint = none → dir.wal = none →
      Ferratomic.coldStart orders orders' dir = .ok result →
      Reopens given [] result.database none
  | crashed {ι : Type} [DecidableEq ι] {acked : List TxReceipt} {db : Database}
      {checkpoint : Option Bytes} {actions : List (ServeAction ι)} {dir : DataDir}
      {orders orders' : Nat → IterOrder} {result : ColdStartResult} :
      Reopens given acked db checkpoint → (∀ action ∈ actions, SoundAction given action) →
      ((start db checkpoint).run actions).Leaves dir →
      Ferratomic.coldStart orders orders' dir = .ok result →
      Reopens given (acked ++ (start db checkpoint).receipts actions) result.database dir.checkpoint

/-- A cold start on an empty directory opens a new database. -/
theorem database_of_coldStart_empty {dir : DataDir} {orders orders' : Nat → IterOrder}
    {result : ColdStartResult} (hcheckpoint : dir.checkpoint = none) (hwal : dir.wal = none)
    (hresult : Ferratomic.coldStart orders orders' dir = .ok result) :
    result.database = Database.genesisWithWal := by
  cases hcreate : dir.createDirAll with
  | error e =>
      rw [Ferratomic.coldStart, hcreate] at hresult
      cases hresult
  | ok _ =>
      cases hlog : dir.createWal with
      | error e =>
          rw [Ferratomic.coldStart, hcreate, hcheckpoint, hwal, hlog] at hresult
          cases hresult
      | ok _ =>
          rw [coldStart_empty hcreate hcheckpoint hwal hlog] at hresult
          cases hresult
          rfl

/-- Whatever is reopened keeps a history of all that was acknowledged. -/
theorem Reopens.kept (hfaithful : Bincode.Faithful) {given : List Datom → Prop}
    (hshort : ∀ datoms, given datoms → ShortAttrs datoms) {acked : List TxReceipt} {db : Database}
    {checkpoint : Option Bytes} (h : Reopens given acked db checkpoint) :
    ∃ history, acked.Sublist history ∧
      ∀ {ι : Type} [DecidableEq ι], Kept given history (start db checkpoint : Serving ι) := by
  induction h with
  | created hcheckpoint hwal hresult =>
      rw [database_of_coldStart_empty hcheckpoint hwal hresult]
      have hopened : Writers.Opened given [] Database.genesisWithWal :=
        Writers.opened_genesisWithWal
      refine ⟨[], .refl _, fun {_} _ => kept_start hopened.log hopened.stamped carries_genesis ?_⟩
      intro bytes hbytes
      cases hbytes
  | crashed _ hsound hleaves hresult ih =>
      obtain ⟨history, hsublist, hkept⟩ := ih
      obtain ⟨result, more, hsame, -, hcarries, hgiven, hlog, hcheckpoint⟩ :=
        (hkept.run hfaithful hshort hsound).coldStart hfaithful hshort hleaves _ _
      rw [hresult] at hsame
      cases hsame
      exact ⟨_, (hsublist.append_right _).trans (List.sublist_append_left _ _),
        fun {_} _ => kept_start hlog hgiven hcarries hcheckpoint⟩

/-- What a cold start opens after a crash behind the given actions. -/
structure ColdStarted (given : List Datom → Prop) (acked : List TxReceipt) (db : Database)
    (checkpoint : Option Bytes) (actions : List (ServeAction ι)) (result : ColdStartResult) :
    Prop where
  level : result.level ≠ .genesis
  /-- The store is that of a history of whole transactions that clients wrote, with all that was
  ever published in order. -/
  history : ∃ history, Carries history result.database.current ∧ acked.Sublist history ∧
    ∀ receipt ∈ history, receipt.From given
  /-- Every datom of a call that has returned at any time before the crash is there. -/
  returned : ∀ before after client receipts, actions = before ++ after →
    ((start db checkpoint).run before).writers.phase client = .done (.ok receipts) →
    ∀ receipt ∈ receipts, ∀ d ∈ receipt.datoms, d ∈ result.database.current.datomSet

/-- At whatever step the process stops, after any number of crashes and cold starts, and whichever
checkpoints were written meanwhile, a cold start on the directory that is left recovers all that was
ever published. -/
theorem cold_starts_recover (hfaithful : Bincode.Faithful) {given : List Datom → Prop}
    (hshort : ∀ datoms, given datoms → ShortAttrs datoms) {acked : List TxReceipt} {db : Database}
    {checkpoint : Option Bytes} (h : Reopens given acked db checkpoint)
    {actions : List (ServeAction ι)} (hsound : ∀ action ∈ actions, SoundAction given action)
    {dir : DataDir} (hleaves : ((start db checkpoint).run actions).Leaves dir)
    (orders orders' : Nat → IterOrder) :
    ∃ result, Ferratomic.coldStart orders orders' dir = .ok result ∧
      ColdStarted given (acked ++ (start db checkpoint).receipts actions) db checkpoint actions
        result := by
  obtain ⟨history, hsublist, hkept⟩ := h.kept hfaithful hshort
  obtain ⟨result, more, hresult, hlevel, hcarries, hgiven, -⟩ :=
    (hkept.run hfaithful hshort hsound).coldStart hfaithful hshort hleaves orders orders'
  have hacked : (acked ++ (start db checkpoint : Serving ι).receipts actions).Sublist
      (history ++ (start db checkpoint : Serving ι).receipts actions ++ more) :=
    (hsublist.append_right _).trans (List.sublist_append_left _ _)
  refine ⟨result, hresult, hlevel, ⟨_, hcarries, hacked, hgiven⟩, ?_⟩
  rintro before after client receipts rfl hdone receipt hreceipt d hd
  rw [writers_run] at hdone
  have hmem : receipt ∈ (start db checkpoint : Serving ι).receipts (before ++ after) := by
    rw [Serving.receipts, List.filterMap_append, Writers.receipts_append]
    exact List.mem_append_left _ (Writers.mem_receipts_of_done hdone hreceipt)
  exact (hcarries.datoms d).mpr
    ⟨receipt, hacked.subset (List.mem_append_right _ hmem), hd⟩

end Serving

end Serving

open Sample

/-- A client writes a transaction, and then a checkpoint is written and renamed. -/
def Sample.checkpointed : List (ServeAction Bool) :=
  .client (.begin true (.transact document) (envAt 1 .complete (.ok ()))) ::
    List.replicate 14 (.client (.advance true)) ++ [.writeTemp, .rename]

/-- An empty directory. -/
def Sample.emptyDir : DataDir where
  createDirAll := .ok ()
  checkpoint := none
  wal := none
  createWal := .ok ()
  createNew h := by cases h

/-- A cold start on the checkpoint that was renamed and the log. -/
theorem Serving.cold_starts_recover_document :
    ∃ result, coldStart (fun _ => .arrival) (fun _ => .arrival)
        ((Serving.start Database.genesisWithWal none).run checkpointed).left = .ok result ∧
      ColdStarted (· = document.datoms)
        ((Serving.start Database.genesisWithWal none).receipts checkpointed)
        Database.genesisWithWal none checkpointed result := by
  have hsound : ∀ action ∈ checkpointed, SoundAction (· = document.datoms) action := by
    intro action haction
    rcases List.mem_append.mp haction with hclient | hcheckpoint
    · rcases List.mem_cons.mp hclient with heq | hrest
      · rw [heq]
        refine ⟨fun transaction htransaction => ?_, fun _ => rfl⟩
        rw [List.mem_singleton.mp htransaction]
      · rw [List.eq_of_mem_replicate hrest]
        trivial
    · rcases List.mem_cons.mp hcheckpoint with heq | hrest
      · rw [heq]
        trivial
      · rw [List.mem_singleton.mp hrest]
        trivial
  have hopens : Reopens (· = document.datoms) [] Database.genesisWithWal none :=
    .created rfl rfl (@coldStart_empty _ _ emptyDir rfl rfl rfl rfl (fun _ => .arrival) fun _ =>
      .arrival)
  obtain ⟨history, -, hkept⟩ := hopens.kept Bincode.faithful_reference shortAttrs_of_document
  obtain ⟨extra, hlogged⟩ :=
    ((@hkept Bool _).run Bincode.faithful_reference shortAttrs_of_document hsound).logged
  obtain ⟨wal, hwal, -⟩ := hlogged.log
  have hrecovers :=
    cold_starts_recover Bincode.faithful_reference shortAttrs_of_document hopens hsound
      (leaves_left hwal) (fun _ => .arrival) fun _ => .arrival
  rwa [List.nil_append] at hrecovers

end Ferratomic
