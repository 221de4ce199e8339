import Ferratomic.Db.Durability
import Ferratomic.Db.Snapshots

/-!
# What the log holds while clients write

On a disk that completes its writes the log holds, in every state of every interleaving of clients,
the entries of the published transactions in order and behind them those of at most one call that
has not been published, and what is published is synced. The invariant is `Logged`, and `Logged.run`
keeps it along a run. A call that fails behind its entries leaves them in the file; no later call
gets past them.
-/

namespace Ferratomic

open Lib

/-- The disk completes all writes of a call; its syncs may fail. -/
def Env.Completes (env : Env) : Prop :=
  ∀ index, env.write index = .complete

/-- The datoms of the transactions of a call are among the given ones. -/
def Call.From (given : List Datom → Prop) (call : Call) : Prop :=
  ∀ transaction ∈ call.transactions, given transaction.datoms

/-- The datoms of the transactions of a ticket are among the given ones. -/
def Ticket.From (given : List Datom → Prop) : Ticket → Prop
  | single transaction _ _ => given transaction.datoms
  | batch batches => ∀ item ∈ batches, given item.1

/-- A receipt is that of a transaction with given datoms. -/
def TxReceipt.From (given : List Datom → Prop) (receipt : TxReceipt) : Prop :=
  ∃ transaction : Transaction, given transaction.datoms ∧ Stamped transaction receipt

section Phases

variable [Blake3]

/-- What is known of the call of a client, and of the disk that it writes to. -/
def Phase.Sound (given : List Datom → Prop) : Phase → Prop
  | entered call env => call.From given ∧ env.Completes
  | slotted call env => call.From given ∧ env.Completes
  | locked call env => call.From given ∧ env.Completes
  | ticked env ticket => ticket.From given ∧ env.Completes
  | snapped env ticket _ => ticket.From given ∧ env.Completes
  | loaded env ticket _ _ => ticket.From given ∧ env.Completes
  | logging env _ receipts _ _ => (∀ receipt ∈ receipts, receipt.From given) ∧ env.Completes
  | _ => True

variable {given : List Datom → Prop}

omit [Blake3] in
/-- The ticket of a call has the datoms that the call was given. -/
theorem Call.From.tick {call : Call} (h : call.From given) {clock : HybridClock} {env : Env}
    {ticket : Ticket} (htick : (call.tick clock env).1 = .ok ticket) : ticket.From given := by
  have hsingle {transaction : Transaction} {key : Option SigningKey}
      (hgiven : given transaction.datoms)
      (h : (Ticket.tick clock env transaction key).1 = .ok ticket) : ticket.From given := by
    unfold Ticket.tick at h
    split at h
    · cases h
    · cases h
      exact hgiven
  cases call with
  | transact transaction => exact hsingle (h transaction (List.mem_singleton.mpr rfl)) htick
  | transactSigned transaction key =>
      exact hsingle (h transaction (List.mem_singleton.mpr rfl)) htick
  | batchTransact transactions =>
      simp only [Call.tick] at htick
      split at htick
      case h_1 => cases htick
      case h_2 batches next hticks =>
          cases htick
          have hfst := Database.map_fst_tickBatches (congrArg Prod.fst hticks)
          intro item hitem
          have hmem : item.1 ∈ transactions.map Transaction.datoms := by
            rw [← hfst]
            exact List.mem_map_of_mem hitem
          obtain ⟨transaction, htransaction, hsame⟩ := List.mem_map.mp hmem
          rw [← hsame]
          exact h transaction htransaction

/-- The receipts of a ticket have the datoms that the ticket was given. -/
theorem Ticket.From.apply {ticket : Ticket} (h : ticket.From given) {env : Env}
    {frontier : Frontier} {store next : Store} {receipts : List TxReceipt}
    {advance : Option TxId}
    (happly : ticket.apply env frontier store = .ok (receipts, next, advance)) :
    ∀ receipt ∈ receipts, receipt.From given := by
  cases ticket with
  | single transaction key txId =>
      unfold Ticket.apply at happly
      simp only at happly
      split at happly
      case h_1 => cases happly
      case h_2 receipt next' htransact =>
          cases happly
          obtain ⟨hdatoms, -⟩ := Store.transact_ok (congrArg Prod.fst htransact)
          intro other hother
          rw [List.mem_singleton.mp hother]
          exact ⟨transaction, h, txId, _, hdatoms, fun d hd => attr_mem_metadataAttributes hd⟩
  | batch batches =>
      unfold Ticket.apply at happly
      simp only at happly
      split at happly
      case h_1 => cases happly
      case h_2 receipts' next' hsplice =>
          cases happly
          obtain ⟨hdatoms, -⟩ := Store.batchSpliceTransact_ok (congrArg Prod.fst hsplice)
          intro receipt hreceipt
          have hmem : receipt.datoms ∈ receipts.map TxReceipt.datoms :=
            List.mem_map_of_mem hreceipt
          rw [hdatoms] at hmem
          obtain ⟨item, hitem, hsame⟩ := List.mem_map.mp hmem
          refine ⟨⟨NodeId.zero, item.1⟩, h item hitem, item.2,
            transactMetadata item.2.node (batchContext item.2), ?_,
            fun d hd => attr_mem_metadataAttributes hd⟩
          rw [← hsame, stampAndAppendMetadata]

variable [Bincode]

/-- An epoch that is not new to the log is refused before anything is written. -/
theorem Database.writeWal_stale {db : Database} {wal : Log} (hwal : db.wal = some wal)
    {receipt : TxReceipt} (hepoch : receipt.epoch ≤ wal.pendingEpoch)
    (hpending : 0 < wal.pendingEpoch) (write : WriteOutcome) (sync : Except String Unit) :
    ∃ e, db.writeWal write sync receipt = (.error e, db) := by
  have hsame : { db with wal := some wal } = db := by
    rw [← hwal]
  unfold writeWal
  rw [hwal]
  simp only
  cases Bincode.datoms.serialize receipt.datoms with
  | error message => exact ⟨_, rfl⟩
  | ok payload =>
      simp only [Log.appendRaw_eq, if_pos (And.intro hepoch hpending), hsame]
      exact ⟨_, rfl⟩

/-- An entry that is written is synced. -/
theorem Database.writeWal_synced {db : Database} {wal wal' : Log} (hwal : db.wal = some wal)
    {receipt : TxReceipt} {write : WriteOutcome} {sync : Except String Unit}
    (h : db.writeWal write sync receipt = (.ok (), { db with wal := some wal' })) :
    wal.lastSyncedEpoch ≤ wal'.lastSyncedEpoch ∧ receipt.epoch ≤ wal'.lastSyncedEpoch := by
  unfold writeWal at h
  rw [hwal] at h
  simp only at h
  split at h
  case h_1 => cases h
  case h_2 payload hserialize =>
      split at h
      case h_1 e failed hfailed => cases h
      case h_2 appended happended =>
          have hpending : appended.lastSyncedEpoch = wal.lastSyncedEpoch ∧
              receipt.epoch ≤ appended.pendingEpoch := by
            simp only [Log.appendRaw_eq] at happended
            split at happended
            case isTrue => cases happended
            case isFalse =>
                split at happended
                case isTrue => cases happended
                case isFalse =>
                    split at happended
                    case isTrue => cases happended
                    case isFalse =>
                        cases write with
                        | failed written message => cases happended
                        | complete =>
                            cases happended
                            exact ⟨rfl, le_max_right _ _⟩
          cases sync with
          | error message => cases h
          | ok _ =>
              have hsynced := congrArg (fun result => result.2.wal) h
              cases Option.some.inj hsynced
              show _ ≤ max appended.lastSyncedEpoch appended.pendingEpoch ∧
                _ ≤ max appended.lastSyncedEpoch appended.pendingEpoch
              rw [hpending.1]
              exact ⟨le_max_left _ _, hpending.2.trans (le_max_right _ _)⟩

/-- A step under the lock keeps what is known of the call. -/
theorem Phase.Sound.advance {phase : Phase} (h : phase.Sound given) (db : Database) :
    (phase.advance db).2.Sound given := by
  fun_cases Phase.advance db phase with
  | case2 call env ticket clock htick =>
      exact ⟨Call.From.tick h.1 (congrArg Prod.fst htick), h.2⟩
  | case7 env ticket frontier store receipts next advance happly =>
      exact ⟨Ticket.From.apply h.1 happly, h.2⟩
  | case3 => exact h
  | case4 => exact h
  | case5 => exact h
  | case9 => exact h
  | case13 => exact h
  | _ => trivial

/-- A step that does not write to the log and does not publish. -/
theorem Phase.advance_quiet {phase : Phase}
    (h : ∀ env index receipts store advance, phase ≠ .logging env index receipts store advance)
    (db : Database) : (phase.advance db).1.wal = db.wal ∧
      (phase.advance db).1.current = db.current ∧
      ∀ env index receipts store advance,
        (phase.advance db).2 = .logging env index receipts store advance → index = 0 := by
  fun_cases Phase.advance db phase with
  | case7 =>
      refine ⟨rfl, rfl, fun _ _ _ _ _ heq => ?_⟩
      cases heq
      rfl
  | case8 env index receipts store advance => exact absurd rfl (h env index receipts store advance)
  | case9 env index receipts store advance => exact absurd rfl (h env index receipts store advance)
  | case10 env index receipts store advance => exact absurd rfl (h env index receipts store advance)
  | case13 => exact ⟨rfl, rfl, fun _ _ _ _ _ heq => absurd heq (h _ _ _ _ _)⟩
  | _ => exact ⟨rfl, rfl, fun _ _ _ _ _ heq => by cases heq⟩

/-- The log of a state: the entries of the published transactions, then those of a call that has
written some entries and has not been published. -/
structure LogFile (past extra : List TxReceipt) (wal : Log) : Prop where
  entries : ∃ entries, wal.file = frames entries ∧ (∀ entry ∈ entries, entry.Fits) ∧
    List.Forall₂ Database.Logs (past ++ extra) entries
  pending : ∀ receipt ∈ extra, receipt.epoch ≤ wal.pendingEpoch
  synced : ∀ receipt ∈ past, receipt.epoch ≤ wal.lastSyncedEpoch

omit [Blake3] in
/-- An entry is appended to the log. -/
theorem LogFile.append {past extra : List TxReceipt} {wal wal' : Log}
    (h : LogFile past extra wal) {receipt : TxReceipt} {entry : WalEntry}
    (hlogs : Database.Logs receipt entry) (hfits : entry.Fits)
    (hfile : wal'.file = wal.file ++ frame entry.epoch entry.payload)
    (hpending : wal'.pendingEpoch = max wal.pendingEpoch entry.epoch)
    (hsynced : wal.lastSyncedEpoch ≤ wal'.lastSyncedEpoch) :
    LogFile past (extra ++ [receipt]) wal' := by
  obtain ⟨entries, hentries, hall, hforall⟩ := h.entries
  refine ⟨⟨entries ++ [entry], ?_, fun other hother => ?_, ?_⟩, fun other hother => ?_,
    fun other hother => (h.synced other hother).trans hsynced⟩
  · rw [hfile, hentries, frames_append, frames_cons, frames_nil, List.append_nil]
  · rcases List.mem_append.mp hother with hold | hnew
    · exact hall other hold
    · rw [List.mem_singleton.mp hnew]
      exact hfits
  · rw [← List.append_assoc]
    exact List.rel_append hforall (.cons hlogs .nil)
  · rw [hpending]
    rcases List.mem_append.mp hother with hold | hnew
    · exact (h.pending other hold).trans (le_max_left _ _)
    · rw [List.mem_singleton.mp hnew, ← hlogs.1]
      exact le_max_right _ _

omit [Blake3] [Bincode] in
/-- The first receipts of a chain are a chain. -/
theorem Stamps.take {epoch epoch' : UInt64} {schema schema' : Schema}
    {receipts : List TxReceipt} (h : Stamps epoch schema receipts epoch' schema') (count : Nat) :
    ∃ epoch'' schema'', Stamps epoch schema (receipts.take count) epoch'' schema'' := by
  induction h generalizing count with
  | nil epoch schema =>
      rw [List.take_nil]
      exact ⟨epoch, schema, .nil epoch schema⟩
  | cons order hchecked hevolve _ ih =>
      cases count with
      | zero => exact ⟨_, _, .nil _ _⟩
      | succ count =>
          obtain ⟨epoch'', schema'', hrest⟩ := ih count
          exact ⟨epoch'', schema'', .cons order hchecked hevolve hrest⟩

omit [Blake3] [Bincode] in
/-- Two chains that start at the same epoch agree on the first epoch. -/
theorem Stamps.head_epoch {epoch last last' : UInt64}
    {schema schema' next next' : Schema} {first other : TxReceipt} {rest rest' : List TxReceipt}
    (h : Stamps epoch schema (first :: rest) last next)
    (hother : Stamps epoch schema' (other :: rest') last' next') : first.epoch = other.epoch := by
  cases h with
  | cons order hchecked =>
      cases hother with
      | cons order' hchecked' =>
          rw [hchecked] at hchecked'
          exact Option.some.inj hchecked'

/-- The log of the database is synced up to the epochs of the receipts. -/
def Database.Synced (db : Database) (receipts : List TxReceipt) : Prop :=
  ∀ wal, db.wal = some wal → ∀ receipt ∈ receipts, receipt.epoch ≤ wal.lastSyncedEpoch

namespace Writers

variable {ι : Type} [DecidableEq ι]

/-- The invariant of a run on a disk that completes its writes. A call that finds entries of a
failed one in the log has written none itself. -/
structure Logged (given : List Datom → Prop) (past extra : List TxReceipt) (state : Writers ι) :
    Prop where
  log : ∃ wal, state.db.wal = some wal ∧ LogFile past extra wal
  chain : ∃ epoch schema, Stamps state.db.current.epoch state.db.current.schema extra epoch schema
  stamped : ∀ receipt ∈ past ++ extra, receipt.From given
  sound : ∀ client, (state.phase client).Sound given
  logging : ∀ client env index receipts store advance,
    state.phase client = .logging env index receipts store advance →
    (extra = receipts.take index ∧ state.db.Synced extra) ∨ index = 0 ∧ extra ≠ []

/-- A step that leaves the log and the published store. -/
theorem Logged.quiet {past extra : List TxReceipt} {state next : Writers ι}
    (h : Logged given past extra state) {client : ι} {later : Phase}
    (hphase : next.phase = Function.update state.phase client later)
    (hwal : next.db.wal = state.db.wal) (hcurrent : next.db.current = state.db.current)
    (hsound : later.Sound given)
    (hlogging : ∀ env index receipts store advance,
      later = .logging env index receipts store advance → index = 0) :
    Logged given past extra next := by
  refine ⟨?_, ?_, h.stamped, fun other => ?_,
    fun other env index receipts store advance hother => ?_⟩
  · rw [hwal]
    exact h.log
  · rw [hcurrent]
    exact h.chain
  · rw [hphase]
    by_cases hown : other = client
    · subst hown
      rw [Function.update_self]
      exact hsound
    · rw [Function.update_of_ne hown]
      exact h.sound other
  · rw [hphase] at hother
    by_cases hown : other = client
    · subst hown
      rw [Function.update_self] at hother
      have hzero := hlogging _ _ _ _ _ hother
      subst hzero
      by_cases hextra : extra = []
      · subst hextra
        exact .inl ⟨rfl, fun _ _ _ hmem => absurd hmem List.not_mem_nil⟩
      · exact .inr ⟨rfl, hextra⟩
    · rw [Function.update_of_ne hown] at hother
      have hkept := h.logging other _ _ _ _ _ hother
      rwa [Database.Synced, ← hwal] at hkept

/-- A step of the owner of the lock that writes to the log. -/
theorem Logged.wrote {past extra extra' : List TxReceipt} {state next : Writers ι}
    (h : Logged given past extra state) (hlock : state.Lock) {client : ι}
    (hcritical : (state.phase client).critical = true) {later : Phase}
    (hphase : next.phase = Function.update state.phase client later)
    (hcurrent : next.db.current = state.db.current)
    (hlog : ∃ wal, next.db.wal = some wal ∧ LogFile past extra' wal)
    (hchain : ∃ epoch schema,
      Stamps state.db.current.epoch state.db.current.schema extra' epoch schema)
    (hstamped : ∀ receipt ∈ extra', receipt.From given) (hsound : later.Sound given)
    (hlogging : ∀ env index receipts store advance,
      later = .logging env index receipts store advance →
        extra' = receipts.take index ∧ next.db.Synced extra') :
    Logged given past extra' next := by
  refine ⟨hlog, ?_, fun receipt hreceipt => ?_, fun other => ?_,
    fun other env index receipts store advance hother => ?_⟩
  · rw [hcurrent]
    exact hchain
  · rcases List.mem_append.mp hreceipt with hold | hnew
    · exact h.stamped receipt (List.mem_append_left _ hold)
    · exact hstamped receipt hnew
  · rw [hphase]
    by_cases hown : other = client
    · subst hown
      rw [Function.update_self]
      exact hsound
    · rw [Function.update_of_ne hown]
      exact h.sound other
  · rw [hphase] at hother
    by_cases hown : other = client
    · subst hown
      rw [Function.update_self] at hother
      exact .inl (hlogging _ _ _ _ _ hother)
    · -- another client that writes to the log would own the lock
      rw [Function.update_of_ne hown] at hother
      have hheld : (state.phase other).critical = true := by
        rw [hother]
        rfl
      have howner := (hlock client).mp hcritical
      rw [(hlock other).mp hheld] at howner
      exact absurd (Option.some.inj howner) hown

/-- A call writes its next entry, or fails to. -/
theorem Logged.write {past extra : List TxReceipt} {state next : Writers ι}
    (h : Logged given past extra state) (hlock : state.Lock) {client : ι} {env : Env} {index : Nat}
    {receipts : List TxReceipt} {store : Store} {advance : Option TxId} {receipt : TxReceipt}
    (hlogging : state.phase client = .logging env index receipts store advance)
    (hentry : receipts[index]? = some receipt)
    (hcommits : Commits state.db.current.obs receipts store.obs)
    (hdb : next.db = ((state.phase client).advance state.db).1)
    (hphase : next.phase =
      Function.update state.phase client ((state.phase client).advance state.db).2) :
    ∃ extra, Logged given past extra next := by
  obtain ⟨wal, hwal, hlog⟩ := h.log
  obtain ⟨epoch, schema, hstamps, -⟩ := hcommits
  have hsound := h.sound client
  have hadvanced := hsound.advance state.db
  rw [hlogging] at hsound hadvanced hdb hphase
  obtain ⟨hstamped, hcompletes⟩ := hsound
  have hcritical : (state.phase client).critical = true := by
    rw [hlogging]
    rfl
  have hfail {e : FerraError} {db : Database}
      (hwrite : state.db.writeWal (env.write index) (env.sync index) receipt = (.error e, db)) :
      (Phase.logging env index receipts store advance).advance state.db =
        (db, .unlocking (.error e)) := by
    simp only [Phase.advance, hentry, hwrite]
  rcases h.logging client env index receipts store advance hlogging with
    ⟨hown, hextraSynced⟩ | ⟨hzero, hextra⟩
  · obtain ⟨result, wal', hwrite, hcase⟩ :=
      Database.writeWal_cases hwal (env.write index) (env.sync index) receipt
    have htake : extra ++ [receipt] = receipts.take (index + 1) := by
      rw [List.take_add_one, hentry, hown]
      rfl
    cases hcase with
    | refused e =>
        rw [hfail hwrite] at hdb hphase
        refine ⟨extra, h.quiet hphase ?_ ?_ trivial fun _ _ _ _ _ heq => by cases heq⟩
        · rw [hdb, hwal]
        · rw [hdb]
    | torn e entry written message hlogs hfits hfailed =>
        rw [hcompletes index] at hfailed
        cases hfailed
    | unsynced e entry message hlogs hfits =>
        rw [hfail hwrite] at hdb hphase
        refine ⟨extra ++ [receipt], h.wrote hlock hcritical hphase ?_ ?_ ?_ ?_ trivial
          fun _ _ _ _ _ heq => by cases heq⟩
        · rw [hdb]
        · rw [hdb]
          exact ⟨_, rfl, hlog.append hlogs hfits rfl rfl (le_refl _)⟩
        · rw [htake]
          exact hstamps.take (index + 1)
        · rw [htake]
          exact fun other hother => hstamped other (List.mem_of_mem_take hother)
    | done entry synced hlogs hfits =>
        obtain ⟨hkept, hreached⟩ := Database.writeWal_synced hwal hwrite
        have hdone : (Phase.logging env index receipts store advance).advance state.db =
            ({ state.db with
              wal := some ⟨wal.file ++ frame entry.epoch entry.payload, synced,
                max wal.pendingEpoch entry.epoch⟩ },
              .logging env (index + 1) receipts store advance) := by
          simp only [Phase.advance, hentry, hwrite]
        rw [hdone] at hdb hphase hadvanced
        refine ⟨extra ++ [receipt], h.wrote hlock hcritical hphase ?_ ?_ ?_ ?_ hadvanced
          fun _ _ _ _ _ heq => ?_⟩
        · rw [hdb]
        · rw [hdb]
          exact ⟨_, rfl, hlog.append hlogs hfits rfl rfl hkept⟩
        · rw [htake]
          exact hstamps.take (index + 1)
        · rw [htake]
          exact fun other hother => hstamped other (List.mem_of_mem_take hother)
        · cases heq
          refine ⟨htake, fun wal' hwal' other hother => ?_⟩
          rw [hdb] at hwal'
          cases hwal'
          rcases List.mem_append.mp hother with hold | hnew
          · exact (hextraSynced wal hwal other hold).trans hkept
          · rw [List.mem_singleton.mp hnew]
            exact hreached
  · -- the entries of a failed call have the epochs that this one would write
    subst hzero
    obtain ⟨left, more, rfl⟩ := List.exists_cons_of_ne_nil hextra
    obtain ⟨first, rest, rfl⟩ : ∃ first rest, receipts = first :: rest := by
      cases receipts with
      | nil => cases hentry
      | cons first rest => exact ⟨first, rest, rfl⟩
    obtain rfl : first = receipt := Option.some.inj hentry
    obtain ⟨last, last', hchain⟩ := h.chain
    have hsame := Stamps.head_epoch hstamps hchain
    have hpending := hlog.pending left List.mem_cons_self
    have hpositive : 0 < wal.pendingEpoch :=
      lt_of_le_of_lt UInt64.zero_le
        (lt_of_lt_of_le (hchain.epoch_mem List.mem_cons_self).1 hpending)
    obtain ⟨e, hwrite⟩ := Database.writeWal_stale hwal (hsame ▸ hpending) hpositive
      (env.write 0) (env.sync 0)
    rw [hfail hwrite] at hdb hphase
    refine ⟨left :: more, h.quiet hphase ?_ ?_ trivial fun _ _ _ _ _ heq => by cases heq⟩
    · rw [hdb]
    · rw [hdb]

/-- A call publishes its store: the entries behind those of the published transactions are now
entries of published ones. -/
theorem Logged.publish {past extra : List TxReceipt} {state next : Writers ι}
    (h : Logged given past extra state) (hlock : state.Lock) {client : ι} {env : Env} {index : Nat}
    {receipts : List TxReceipt} {store : Store} {advance : Option TxId}
    (hlogging : state.phase client = .logging env index receipts store advance)
    (hentry : receipts[index]? = none) (hcommits : Commits state.db.current.obs receipts store.obs)
    (hdb : next.db = { state.db with current := store })
    (hphase : next.phase = Function.update state.phase client (.published receipts advance)) :
    ∃ extra, Logged given (past ++ receipts) extra next := by
  obtain ⟨wal, hwal, hlog⟩ := h.log
  have hcritical : (state.phase client).critical = true := by
    rw [hlogging]
    rfl
  have hothers (other : ι) (env : Env) (index : Nat) (receipts : List TxReceipt) (store : Store)
      (advance : Option TxId) : next.phase other ≠ .logging env index receipts store advance := by
    intro hother
    rw [hphase] at hother
    by_cases hown : other = client
    · subst hown
      rw [Function.update_self] at hother
      cases hother
    · rw [Function.update_of_ne hown] at hother
      have hheld : (state.phase other).critical = true := by
        rw [hother]
        rfl
      have howner := (hlock client).mp hcritical
      rw [(hlock other).mp hheld] at howner
      exact hown (Option.some.inj howner)
  have hsound (other : ι) : (next.phase other).Sound given := by
    rw [hphase]
    by_cases hown : other = client
    · subst hown
      rw [Function.update_self]
      trivial
    · rw [Function.update_of_ne hown]
      exact h.sound other
  obtain ⟨epoch, schema, hstamps, hobs⟩ := hcommits
  have hepoch : store.epoch = epoch := congrArg Observation.epoch hobs
  have hschema : store.schema = schema := congrArg Observation.schema hobs
  rcases h.logging client env index receipts store advance hlogging with
    ⟨hown, hextraSynced⟩ | ⟨hzero, hextra⟩
  · have hall : extra = receipts := by
      rw [hown, List.take_of_length_le (List.getElem?_eq_none_iff.mp hentry)]
    subst hall
    refine ⟨[], ⟨wal, by rw [hdb, hwal], ?_, ?_, ?_⟩, ?_, ?_, hsound,
      fun other env index receipts store advance hother => absurd hother (hothers _ _ _ _ _ _)⟩
    · rw [List.append_nil]
      exact hlog.entries
    · exact fun receipt hreceipt => absurd hreceipt List.not_mem_nil
    · intro receipt hreceipt
      rcases List.mem_append.mp hreceipt with hold | hnew
      · exact hlog.synced receipt hold
      · exact hextraSynced wal hwal receipt hnew
    · exact ⟨_, _, .nil _ _⟩
    · rw [List.append_nil]
      exact h.stamped
  · subst hzero
    have hnil : receipts = [] := List.length_eq_zero_iff.mp
      (Nat.le_zero.mp (List.getElem?_eq_none_iff.mp hentry))
    subst hnil
    cases hstamps
    refine ⟨extra, ⟨wal, by rw [hdb, hwal], ?_⟩, ?_, ?_, hsound,
      fun other env index receipts store advance hother => absurd hother (hothers _ _ _ _ _ _)⟩
    · rw [List.append_nil]
      exact hlog
    · rw [hdb]
      show ∃ epoch schema, Stamps store.epoch store.schema extra epoch schema
      rw [hepoch, hschema]
      exact h.chain
    · rw [List.append_nil]
      exact h.stamped

/-- The steps under the lock, up to its release. -/
theorem inside_of_critical {state : Writers ι} {client : ι}
    (h : (state.phase client).critical = true)
    (hlocked : ∀ result, state.phase client ≠ .unlocking result) :
    Inside state (state.step (.advance client)) client := by
  rw [Writers.step]
  cases hphase : state.phase client with
  | unlocking result => exact absurd hphase (hlocked result)
  | locked => exact ⟨by rw [hphase]; rfl, by rw [hphase], rfl, by rw [hphase]⟩
  | ticked => exact ⟨by rw [hphase]; rfl, by rw [hphase], rfl, by rw [hphase]⟩
  | snapped => exact ⟨by rw [hphase]; rfl, by rw [hphase], rfl, by rw [hphase]⟩
  | loaded => exact ⟨by rw [hphase]; rfl, by rw [hphase], rfl, by rw [hphase]⟩
  | logging => exact ⟨by rw [hphase]; rfl, by rw [hphase], rfl, by rw [hphase]⟩
  | published => exact ⟨by rw [hphase]; rfl, by rw [hphase], rfl, by rw [hphase]⟩
  | _ =>
      rw [hphase] at h
      cases h

/-- What is asked of an action: a call has given transactions and a disk that completes its
writes. -/
def SoundAction (given : List Datom → Prop) : Action ι → Prop
  | .begin _ call env => call.From given ∧ env.Completes
  | .register _ _ => True
  | .advance _ => True

/-- A step keeps the log in line with what is published. -/
theorem Logged.step {past extra : List TxReceipt} {state : Writers ι}
    (h : Logged given past extra state) {published : List TxId} (hinv : state.Inv published)
    {action : Action ι} (hsound : SoundAction given action) :
    ∃ extra, Logged given (past ++ (state.publication action).elim [] Prod.fst) extra
      (state.step action) := by
  cases action with
  | begin client call env =>
      have hpast : past ++ (state.publication (.begin client call env)).elim [] Prod.fst = past :=
        List.append_nil past
      rw [hpast]
      rcases step_begin state client call env with hstep | hstep
      · rw [hstep]
        exact ⟨extra, h⟩
      · refine ⟨extra, h.quiet hstep.phase (by rw [hstep.db]) (by rw [hstep.db]) ?_ ?_⟩
        · fun_cases Call.enter env call with
          | case1 => trivial
          | case2 => exact hsound
        · fun_cases Call.enter env call with
          | case1 => exact fun _ _ _ _ _ heq => by cases heq
          | case2 => exact fun _ _ _ _ _ heq => by cases heq
  | register client filter =>
      have hpast : past ++ (state.publication (.register client filter)).elim [] Prod.fst = past :=
        List.append_nil past
      rw [hpast]
      rcases step_register state client filter with hstep | hstep
      · rw [hstep]
        exact ⟨extra, h⟩
      · exact ⟨extra, h.quiet hstep.phase (by rw [hstep.db]) (by rw [hstep.db]) trivial
          fun _ _ _ _ _ heq => by cases heq⟩
  | advance client =>
      have hsoundClient := h.sound client
      have hquiet (hpublishes : (state.phase client).publishes = none) :
          past ++ (state.publication (.advance client)).elim [] Prod.fst = past := by
        rw [publication, hpublishes]
        exact List.append_nil past
      cases hphase : state.phase client with
      | logging env index receipts store advance =>
          have hvalid := hinv.valid client
          rw [hphase] at hvalid
          obtain ⟨txIds, -, -, hcommits⟩ := hvalid
          have hinside : Inside state (state.step (.advance client)) client := inside_of_critical
            (by rw [hphase]; rfl) fun result heq => by rw [hphase] at heq; cases heq
          have hstepDb := hinside.db
          have hstepPhase := hinside.phase
          cases hentry : receipts[index]? with
          | some receipt =>
              rw [hquiet (by simp [hphase, Phase.publishes, hentry])]
              exact h.write hinv.lock hphase hentry hcommits hstepDb hstepPhase
          | none =>
              have hloud : (state.publication (.advance client)).elim [] Prod.fst = receipts := by
                simp [publication, hphase, Phase.publishes, hentry]
              have hpublish : (state.phase client).advance state.db =
                  ({ state.db with current := store }, .published receipts advance) := by
                simp only [hphase, Phase.advance, hentry]
              rw [hpublish] at hstepDb hstepPhase
              rw [hloud]
              exact h.publish hinv.lock hphase hentry hcommits hstepDb hstepPhase
      | done result =>
          rw [hquiet (by rw [hphase]; rfl), Writers.step, hphase]
          exact ⟨extra, h⟩
      | entered call env =>
          rw [hphase] at hsoundClient
          rw [hquiet (by rw [hphase]; rfl), Writers.step, hphase]
          refine ⟨extra, h.quiet rfl rfl rfl ?_ ?_⟩
          · split
            · trivial
            · exact hsoundClient
          · split
            · exact fun _ _ _ _ _ heq => by cases heq
            · exact fun _ _ _ _ _ heq => by cases heq
      | slotted call env =>
          rw [hphase] at hsoundClient
          rw [hquiet (by rw [hphase]; rfl), Writers.step, hphase]
          cases state.owner with
          | none =>
              exact ⟨extra, h.quiet rfl rfl rfl hsoundClient fun _ _ _ _ _ heq => by cases heq⟩
          | some owner =>
              exact ⟨extra, h.quiet rfl rfl rfl trivial fun _ _ _ _ _ heq => by cases heq⟩
      | overLimit =>
          rw [hquiet (by rw [hphase]; rfl), Writers.step, hphase]
          exact ⟨extra, h.quiet rfl rfl rfl trivial fun _ _ _ _ _ heq => by cases heq⟩
      | unlocking result =>
          rw [hquiet (by rw [hphase]; rfl), Writers.step, hphase]
          exact ⟨extra, h.quiet rfl rfl rfl trivial fun _ _ _ _ _ heq => by cases heq⟩
      | releasing result =>
          rw [hquiet (by rw [hphase]; rfl), Writers.step, hphase]
          refine ⟨extra, h.quiet rfl rfl rfl ?_ ?_⟩
          · fun_cases Phase.released result with
            | case1 => trivial
            | case2 => trivial
          · fun_cases Phase.released result with
            | case1 => exact fun _ _ _ _ _ heq => by cases heq
            | case2 => exact fun _ _ _ _ _ heq => by cases heq
      | notifying receipts =>
          rw [hquiet (by rw [hphase]; rfl), Writers.step, hphase]
          exact ⟨extra, h.quiet rfl rfl rfl trivial fun _ _ _ _ _ heq => by cases heq⟩
      | waiting access =>
          rw [hquiet (by rw [hphase]; rfl), Writers.step, hphase]
          cases state.notifier with
          | none => exact ⟨extra, h.quiet rfl rfl rfl trivial fun _ _ _ _ _ heq => by cases heq⟩
          | some other => exact ⟨extra, h⟩
      | delivering access =>
          rw [hquiet (by rw [hphase]; rfl), Writers.step, hphase]
          exact ⟨extra, h.quiet rfl rfl rfl trivial fun _ _ _ _ _ heq => by cases heq⟩
      | _ =>
          -- under the lock, but not at the log
          have hinside : Inside state (state.step (.advance client)) client := inside_of_critical
            (by rw [hphase]; rfl) fun result heq => by rw [hphase] at heq; cases heq
          have hquietPhase (env : Env) (index : Nat) (receipts : List TxReceipt) (store : Store)
              (advance : Option TxId) :
              state.phase client ≠ .logging env index receipts store advance := by
            intro heq
            rw [hphase] at heq
            cases heq
          have hstep := Phase.advance_quiet hquietPhase state.db
          rw [hquiet (by rw [hphase]; rfl)]
          exact ⟨extra, h.quiet hinside.phase (hinside.db ▸ hstep.1) (hinside.db ▸ hstep.2.1)
            (hsoundClient.advance state.db) hstep.2.2⟩

/-- The log of a run. -/
theorem Logged.run {past extra : List TxReceipt} {state : Writers ι}
    (h : Logged given past extra state) {published : List TxId} (hinv : state.Inv published)
    {actions : List (Action ι)} (hsound : ∀ action ∈ actions, SoundAction given action) :
    ∃ extra, Logged given (past ++ state.receipts actions) extra (state.run actions) := by
  induction actions generalizing past extra state published with
  | nil =>
      refine ⟨extra, ?_⟩
      show Logged given (past ++ []) extra state
      rw [List.append_nil]
      exact h
  | cons action rest ih =>
      obtain ⟨hfirst, hrest⟩ := List.forall_mem_cons.mp hsound
      obtain ⟨extra', hstep⟩ := h.step hinv hfirst
      obtain ⟨txIds, hstepped⟩ := hinv.step action
      obtain ⟨last, hlast⟩ := ih hstep hstepped.inv hrest
      rw [receipts_cons, ← List.append_assoc]
      exact ⟨last, hlast⟩

end Writers

end Phases

end Ferratomic
