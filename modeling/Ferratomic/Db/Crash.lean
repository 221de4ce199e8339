import Ferratomic.Db.Logged
import Ferratomic.Wal.Recovery

/-!
# Crashes while clients write

The process stops at any step of any interleaving of clients, also in the middle of a write to the
log, and what has not been synced may be lost. The file that is left is recovered, clients write
again, and the process stops again, any number of times. A call may be anywhere when it stops:
before its first entry, between two entries of a batch, behind its entries and before the
publication. The main theorem, `crashes_recover`, says that recovery always succeeds where the disk
completes the writes that return, and that it gives all that was ever published, in order, and
otherwise only whole transactions that some client wrote.
-/

namespace Ferratomic

open Lib

section Crashes

variable [Blake3] [Bincode] {given : List Datom → Prop}

omit [Blake3] in
/-- The entries of receipts have their epochs. -/
theorem Database.map_epoch_logs {receipts : List TxReceipt} {entries : List WalEntry}
    (h : List.Forall₂ Logs receipts entries) :
    entries.map WalEntry.epoch = receipts.map TxReceipt.epoch := by
  induction h with
  | nil => rfl
  | cons hlogs _ ih => rw [List.map_cons, List.map_cons, ih, hlogs.1]

/-- Replaying the entries of committed transactions commits their receipts. -/
theorem Database.replayWal_commits (hfaithful : Bincode.Faithful) {epoch epoch' : UInt64}
    {schema schema' : Schema} {receipts : List TxReceipt}
    (hstamps : Stamps epoch schema receipts epoch' schema')
    (hattrs : ∀ receipt ∈ receipts, ShortAttrs receipt.datoms) {entries : List WalEntry}
    (hlogs : List.Forall₂ Logs receipts entries) (orders : Nat → IterOrder) (index : Nat)
    (store : Store) (hepoch : store.epoch = epoch) :
    ∃ replayed, replayWal orders index store entries = .ok replayed ∧
      Commits store.obs receipts replayed.obs := by
  induction hstamps generalizing entries index store with
  | nil epoch schema =>
      cases hlogs
      exact ⟨store, rfl, .refl _⟩
  | cons order hnext hevolve _ ih =>
      rename_i epoch schema next receipt receipts epoch' schema' _
      obtain ⟨entry, entries, hlog, hrestLogs, rfl⟩ := List.forall₂_cons_left_iff.mp hlogs
      obtain ⟨hattr, hattrs⟩ := List.forall_mem_cons.mp hattrs
      obtain ⟨bytes, hserialize, hdeserialize⟩ := hfaithful.datoms receipt.datoms hattr
      obtain rfl : bytes = entry.payload := by
        rw [hlog.2] at hserialize
        exact (Except.ok.inj hserialize).symm
      -- evolution succeeded when the transaction was applied, so it succeeds in every order
      have hok : (evolveSchema (orders index) store.schema receipt.datoms).1 = .ok () :=
        evolveSchema_ok_iff.mpr (evolveSchema_ok_iff.mp (congrArg Prod.fst hevolve))
      have hreplay : Store.replayEntry (orders index) store entry.epoch receipt.datoms =
          (.ok (), (Store.replayEntry (orders index) store entry.epoch receipt.datoms).2) :=
        Prod.ext ((Store.fst_replayEntry _ _ _ _).trans hok) rfl
      obtain ⟨replayed, hrest, hcommits⟩ := ih hattrs hrestLogs (index + 1)
        (Store.replayEntry (orders index) store entry.epoch receipt.datoms).2 hlog.1
      refine ⟨replayed, ?_, ?_⟩
      · rw [replayWal, hdeserialize]
        simp only [map_intoTrusted_toWire]
        rw [hreplay]
        exact hrest
      · have hfirst : Commits store.obs [receipt]
            (Store.replayEntry (orders index) store entry.epoch receipt.datoms).2.obs := by
          refine ⟨receipt.epoch, (evolveSchema (orders index) store.schema receipt.datoms).2,
            .cons (orders index) ?_ (Prod.ext hok rfl) (.nil _ _), ?_⟩
          · show checkedSucc store.epoch = some receipt.epoch
            rw [hepoch]
            exact hnext
          · rw [Store.obs_replayEntry, hlog.1, List.flatMap_cons, List.flatMap_nil,
              List.append_nil]
        exact hfirst.append hcommits

/-- The bytes of the log up to its last sync. What a recovery has read counts as synced: it raises
the last synced epoch without a sync of the file. -/
def Log.syncedLength (wal : Log) : Nat :=
  (frames ((parseWalFramesWithPos wal.file).1.takeWhile fun entry =>
    decide (entry.epoch ≤ wal.lastSyncedEpoch))).length

omit [Blake3] in
/-- The entries of receipts up to the last synced epoch are synced. -/
theorem Log.length_le_syncedLength {past extra : List TxReceipt} {wal : Log}
    {entries : List WalEntry}
    (hfile : wal.file = frames entries) (hfits : ∀ entry ∈ entries, entry.Fits)
    (hlogs : List.Forall₂ Database.Logs (past ++ extra) entries)
    (hsynced : ∀ receipt ∈ past, receipt.epoch ≤ wal.lastSyncedEpoch) :
    (frames (entries.take past.length)).length ≤ wal.syncedLength := by
  have hpast : List.Forall₂ Database.Logs past (entries.take past.length) := by
    have htake := List.forall₂_take past.length hlogs
    rwa [List.take_left] at htake
  have hbefore : ∀ entry ∈ entries.take past.length,
      decide (entry.epoch ≤ wal.lastSyncedEpoch) = true := by
    intro entry hentry
    obtain ⟨receipt, hreceipt, hlogged⟩ := exists_of_forall₂ hpast hentry
    rw [hlogged.1]
    exact decide_eq_true (hsynced receipt hreceipt)
  have hsplit : entries = entries.take past.length ++ entries.drop past.length :=
    (List.take_append_drop _ _).symm
  rw [Log.syncedLength, hfile, parseWalFramesWithPos_frames_eq hfits]
  show _ ≤ (frames (entries.takeWhile _)).length
  conv_rhs => rw [hsplit, List.takeWhile_append_of_pos hbefore, frames_append, List.length_append]
  exact Nat.le_add_right _ _

omit [Blake3] [Bincode] in
/-- No more counts as synced than was written. -/
theorem Log.syncedLength_le (wal : Log) : wal.syncedLength ≤ wal.file.length := by
  obtain ⟨-, htake⟩ := parseWalFramesWithPos_sound wal.file
  have hwhole : (frames (parseWalFramesWithPos wal.file).1).length ≤ wal.file.length := by
    rw [← htake]
    exact List.length_take_le' ..
  refine le_trans ?_ hwhole
  rw [syncedLength]
  conv_rhs => rw [← List.takeWhile_append_dropWhile (p := fun entry : WalEntry =>
    decide (entry.epoch ≤ wal.lastSyncedEpoch)) (l := (parseWalFramesWithPos wal.file).1),
    frames_append, List.length_append]
  exact Nat.le_add_right _ _

namespace Writers

variable {ι : Type} [DecidableEq ι]

/-- What is known of a database that is opened: its log holds the entries of a history of receipts,
all synced, and its store is what the history makes of an empty one. -/
structure Opened (given : List Datom → Prop) (history : List TxReceipt) (db : Database) : Prop where
  log : ∃ wal, db.wal = some wal ∧ LogFile history [] wal
  commits : Commits Store.genesis.obs history db.current.obs
  stamped : ∀ receipt ∈ history, receipt.From given

/-- The genesis database opens an empty history. -/
theorem opened_genesisWithWal : Opened given [] Database.genesisWithWal :=
  ⟨⟨Log.create, rfl, ⟨[], rfl, fun _ h => absurd h List.not_mem_nil, .nil⟩,
    fun _ h => absurd h List.not_mem_nil, fun _ h => absurd h List.not_mem_nil⟩, .refl _,
    fun _ h => absurd h List.not_mem_nil⟩

omit [DecidableEq ι] in
/-- A database whose log holds synced entries of a history, before any client has called. -/
theorem logged_start {history : List TxReceipt} {db : Database}
    (hlog : ∃ wal, db.wal = some wal ∧ LogFile history [] wal)
    (hstamped : ∀ receipt ∈ history, receipt.From given) :
    Logged given history [] (start db : Writers ι) := by
  refine ⟨hlog, ⟨_, _, .nil _ _⟩, ?_, fun _ => trivial, fun _ _ _ _ _ _ heq => by cases heq⟩
  rw [List.append_nil]
  exact hstamped

/-- The files that the log may become when the process stops: the bytes of the log, with a part of
the entry that is being written, of which those behind the last sync may be lost. Bytes that an
earlier recovery has read are not lost, although the recovery itself does not sync them. -/
inductive Leaves (state : Writers ι) : Bytes → Prop
  | between {wal : Log} {kept : Nat} : state.db.wal = some wal → wal.syncedLength ≤ kept →
      Leaves state (wal.file.take kept)
  | writing {wal torn : Log} {client : ι} {env : Env} {index : Nat} {receipts : List TxReceipt}
      {store : Store} {advance : Option TxId} {receipt : TxReceipt} {written : Nat}
      {message : String} {kept : Nat} : state.db.wal = some wal →
      state.phase client = .logging env index receipts store advance →
      receipts[index]? = some receipt →
      (state.db.writeWal (.failed written message) (.ok ()) receipt).2.wal = some torn →
      wal.syncedLength ≤ kept → Leaves state (torn.file.take kept)

omit [DecidableEq ι] in
/-- It may be that nothing is lost. -/
theorem leaves_whole {state : Writers ι} {wal : Log} (hwal : state.db.wal = some wal) :
    Leaves state wal.file := by
  have hleaves := Leaves.between hwal wal.syncedLength_le
  rwa [List.take_length] at hleaves

omit [DecidableEq ι] in
/-- A file that is left holds all that has been published, and then entries of a chain of receipts
that clients have written. -/
theorem Logged.leaves {past extra : List TxReceipt} {state : Writers ι}
    (h : Logged given past extra state) {published : List TxId} (hinv : state.Inv published)
    {file : Bytes} (hcrash : Leaves state file) :
    ∃ more entries n, file = (frames entries).take n ∧ (∀ entry ∈ entries, entry.Fits) ∧
      List.Forall₂ Database.Logs (past ++ more) entries ∧
      (frames (entries.take past.length)).length ≤ n ∧ (∀ receipt ∈ more, receipt.From given) ∧
      ∃ epoch schema,
        Stamps state.db.current.epoch state.db.current.schema more epoch schema := by
  obtain ⟨wal, hwal, hlog⟩ := h.log
  obtain ⟨entries, hfile, hfits, hlogs⟩ := hlog.entries
  have hsynced := Log.length_le_syncedLength hfile hfits hlogs hlog.synced
  have hextra : ∀ receipt ∈ extra, receipt.From given :=
    fun receipt hreceipt => h.stamped receipt (List.mem_append_right _ hreceipt)
  cases hcrash with
  | between hsome hkept =>
      rw [hwal] at hsome
      cases hsome
      exact ⟨extra, entries, _, by rw [hfile], hfits, hlogs, hsynced.trans hkept, hextra, h.chain⟩
  | writing hsome hphase hentry htorn hkept =>
      rename_i client env index receipts store advance receipt written message kept
      rw [hwal] at hsome
      cases hsome
      obtain ⟨result, wal', hwrite, hcase⟩ :=
        Database.writeWal_cases hwal (.failed written message) (.ok ()) receipt
      rw [hwrite] at htorn
      cases htorn
      cases hcase with
      | refused e =>
          exact ⟨extra, entries, _, by rw [hfile], hfits, hlogs, hsynced.trans hkept, hextra,
            h.chain⟩
      | unsynced e entry message hlogged hentryFits hcomplete => cases hcomplete
      | done entry synced hlogged hentryFits hcomplete => cases hcomplete
      | torn e entry written' message' hlogged hentryFits hfailed =>
          have hsound := h.sound client
          rw [hphase] at hsound
          have hvalid := hinv.valid client
          rw [hphase] at hvalid
          obtain ⟨txIds, -, -, epoch, schema, hstamps, -⟩ := hvalid
          rcases h.logging client env index receipts store advance hphase with
            ⟨hown, -⟩ | ⟨hzero, hne⟩
          · have htake : extra ++ [receipt] = receipts.take (index + 1) := by
              rw [List.take_add_one, hentry, hown]
              rfl
            have hlength : past.length ≤ entries.length := by
              rw [← hlogs.length_eq, List.length_append]
              exact Nat.le_add_right _ _
            refine ⟨extra ++ [receipt], entries ++ [entry],
              min kept (wal.file.length + written'), ?_, ?_, ?_, ?_, ?_, ?_⟩
            · have hwhole : wal.file ++ (frame entry.epoch entry.payload).take written' =
                  (frames (entries ++ [entry])).take (wal.file.length + written') := by
                rw [frames_append, frames_cons, frames_nil, List.append_nil, ← hfile,
                  List.take_length_add_append]
              show (wal.file ++ _).take kept = _
              rw [hwhole, List.take_take]
            · exact List.forall_mem_append.mpr ⟨hfits, List.forall_mem_singleton.mpr hentryFits⟩
            · rw [← List.append_assoc]
              exact List.rel_append hlogs (.cons hlogged .nil)
            · rw [List.take_append_of_le_length hlength]
              refine le_min (hsynced.trans hkept) (le_trans ?_ (Nat.le_add_right _ _))
              rw [hfile]
              nth_rewrite 2 [← List.take_append_drop past.length entries]
              rw [frames_append, List.length_append]
              exact Nat.le_add_right _ _
            · rw [htake]
              exact fun other hother => hsound.1 other (List.mem_of_mem_take hother)
            · rw [htake]
              exact hstamps.take (index + 1)
          · -- behind the entries of a failed call nothing is written
            subst hzero
            obtain ⟨left, more, rfl⟩ := List.exists_cons_of_ne_nil hne
            obtain ⟨first, rest, rfl⟩ : ∃ first rest, receipts = first :: rest := by
              cases receipts with
              | nil => cases hentry
              | cons first rest => exact ⟨first, rest, rfl⟩
            obtain rfl : first = receipt := Option.some.inj hentry
            obtain ⟨last, last', hchain⟩ := h.chain
            have hsame := Stamps.head_epoch hstamps hchain
            have hpending := hlog.pending left List.mem_cons_self
            have hpositive : 0 < wal.pendingEpoch :=
              lt_of_le_of_lt UInt64.zero_le
                (lt_of_lt_of_le (hchain.epoch_mem List.mem_cons_self).1 hpending)
            obtain ⟨e', hstale⟩ := Database.writeWal_stale hwal (hsame ▸ hpending) hpositive
              (.failed written message) (.ok ())
            rw [hstale] at hwrite
            have hkeeps := congrArg (fun result => result.2.wal) hwrite
            rw [hwal] at hkeeps
            rw [← Option.some.inj hkeeps]
            exact ⟨left :: more, entries, _, by rw [hfile], hfits, hlogs, hsynced.trans hkept,
              hextra, last, last', hchain⟩

/-- The databases that lives of clients leave behind, each cut short by a crash and recovered from
the file of the log, and the receipts that were published in all of them. -/
inductive Survives (given : List Datom → Prop) : List TxReceipt → Database → Prop
  | created : Survives given [] Database.genesisWithWal
  | crashed {ι : Type} [DecidableEq ι] {acked : List TxReceipt} {db reopened : Database}
      {actions : List (Action ι)} {file : Bytes} {orders : Nat → IterOrder} :
      Survives given acked db → (∀ action ∈ actions, SoundAction given action) →
      Leaves ((start db).run actions) file →
      Database.recoverFromWal orders file = .ok reopened →
      Survives given (acked ++ (start db).receipts actions) reopened

omit [DecidableEq ι] in
/-- What opening the file gives that a crash leaves: the entries of all that has been published and
of some receipts that clients have written behind it, all synced. -/
theorem Logged.reopen {past extra : List TxReceipt} {state : Writers ι}
    (h : Logged given past extra state) {published : List TxId} (hinv : state.Inv published)
    {epoch : UInt64} {schema : Schema}
    (hpast : Stamps epoch schema past state.db.current.epoch state.db.current.schema)
    {file : Bytes} (hcrash : Leaves state file) :
    ∃ more epoch' schema',
      Stamps state.db.current.epoch state.db.current.schema more epoch' schema' ∧
      (∀ receipt ∈ more, receipt.From given) ∧
      List.Forall₂ Database.Logs (past ++ more) (Log.recover file).1 ∧
      LogFile (past ++ more) [] (Log.recover file).2 := by
  obtain ⟨more, entries, n, hfile, hfits, hlogs, hkept, hmore, epoch, schema, hchain⟩ :=
    h.leaves hinv hcrash
  obtain ⟨count, hcount, hiff, hentries, hrecovered⟩ :=
    Log.recover_take hfits hfile
  have hlength : past.length ≤ entries.length := by
    rw [← hlogs.length_eq, List.length_append]
    exact Nat.le_add_right _ _
  have hcovers : past.length ≤ count := (hiff past.length hlength).mp hkept
  have hread : List.Forall₂ Database.Logs (past ++ more.take (count - past.length))
      (entries.take count) := by
    have htake := List.forall₂_take count hlogs
    rwa [List.take_append, List.take_of_length_le hcovers] at htake
  obtain ⟨epoch', schema', hfirst⟩ := hchain.take (count - past.length)
  have hwhole := hpast.append hfirst
  refine ⟨more.take (count - past.length), epoch', schema', hfirst,
    fun receipt hreceipt => hmore receipt (List.mem_of_mem_take hreceipt), ?_,
    ⟨⟨entries.take count, hrecovered, ?_, ?_⟩, ?_, ?_⟩⟩
  · rw [hentries]
    exact hread
  · exact fun entry hentry => hfits entry (List.mem_of_mem_take hentry)
  · rw [List.append_nil]
    exact hread
  · exact fun receipt hreceipt => absurd hreceipt List.not_mem_nil
  · -- the epoch of the last entry is that of the last receipt, and no epoch is greater
    intro receipt hreceipt
    have hne : past ++ more.take (count - past.length) ≠ [] := List.ne_nil_of_mem hreceipt
    have hepochs := Database.map_epoch_logs hread
    have hlast : (Log.recover file).2.lastSyncedEpoch = epoch' := by
      show ((Log.recover file).1.getLast?.map WalEntry.epoch).getD 0 = epoch'
      rw [hentries, ← List.getLast?_map, hepochs, List.getLast?_map,
        List.getLast?_eq_some_getLast hne]
      exact hwhole.epoch_getLast hne
    rw [hlast]
    exact (hwhole.epoch_mem hreceipt).2

omit [Blake3] [Bincode] in
/-- The receipts of transactions with short attribute names have short attribute names. -/
theorem shortAttrs_of_from (hshort : ∀ datoms, given datoms → ShortAttrs datoms)
    {receipts : List TxReceipt} (h : ∀ receipt ∈ receipts, receipt.From given) :
    ∀ receipt ∈ receipts, ShortAttrs receipt.datoms := by
  intro receipt hreceipt
  obtain ⟨transaction, htransaction, hstamped⟩ := h receipt hreceipt
  exact (hshort _ htransaction).of_stamped hstamped

/-- Recovery from what a crash leaves. -/
theorem Opened.recover (hfaithful : Bincode.Faithful)
    (hshort : ∀ datoms, given datoms → ShortAttrs datoms) {history : List TxReceipt} {db : Database}
    (h : Opened given history db) {actions : List (Action ι)}
    (hsound : ∀ action ∈ actions, SoundAction given action) {file : Bytes}
    (hcrash : Leaves ((start db).run actions) file) (orders : Nat → IterOrder) :
    ∃ reopened more, Database.recoverFromWal orders file = .ok reopened ∧
      Opened given (history ++ (start db : Writers ι).receipts actions ++ more) reopened := by
  have hinv := inv_start (ι := ι) db
  obtain ⟨txIds, hran⟩ := hinv.run actions
  obtain ⟨extra, hlogged⟩ := (logged_start h.log h.stamped).run hinv hsound
  have hpast := h.commits.append hran.commits
  obtain ⟨epoch, schema, hstamps, hobs⟩ := hpast
  have hepoch : ((start db : Writers ι).run actions).db.current.epoch = epoch :=
    congrArg Observation.epoch hobs
  have hschema : ((start db : Writers ι).run actions).db.current.schema = schema :=
    congrArg Observation.schema hobs
  rw [← hepoch, ← hschema] at hstamps
  obtain ⟨more, epoch', schema', hchain, hmore, hread, hlog⟩ :=
    hlogged.reopen hran.inv hstamps hcrash
  have hgiven := List.forall_mem_append.mpr
    ⟨fun receipt hreceipt => hlogged.stamped receipt (List.mem_append_left _ hreceipt), hmore⟩
  obtain ⟨replayed, hreplay, hcommits⟩ := Database.replayWal_commits hfaithful
    (hstamps.append hchain) (shortAttrs_of_from hshort hgiven) hread orders 0 Store.genesis rfl
  refine ⟨Database.build replayed (some (Log.recover file).2), more, ?_,
    ⟨⟨_, rfl, hlog⟩, hcommits, hgiven⟩⟩
  rw [Database.recoverFromWal]
  simp only [hreplay]

/-- What survives opens a history of all that was acknowledged. -/
theorem Survives.opened (hfaithful : Bincode.Faithful)
    (hshort : ∀ datoms, given datoms → ShortAttrs datoms) {acked : List TxReceipt} {db : Database}
    (h : Survives given acked db) :
    ∃ history, Opened given history db ∧ acked.Sublist history := by
  induction h with
  | created => exact ⟨[], opened_genesisWithWal, .refl _⟩
  | crashed _ hsound hcrash hrecovered ih =>
      obtain ⟨history, hopened, hsublist⟩ := ih
      obtain ⟨reopened, more, hrecover, hnext⟩ :=
        hopened.recover hfaithful hshort hsound hcrash _
      rw [hrecovered] at hrecover
      cases hrecover
      exact ⟨_, hnext, (hsublist.append_right _).trans (List.sublist_append_left _ _)⟩

/-- What recovery gives after any number of crashes, the last one behind the given actions on a
database. -/
structure CrashRecovered (given : List Datom → Prop) (acked : List TxReceipt) (db : Database)
    (actions : List (Action ι)) (reopened : Database) : Prop where
  /-- The store is that of a history of whole transactions that clients wrote, with all that was
  ever published in order. -/
  history : ∃ history, Commits Store.genesis.obs history reopened.current.obs ∧
    acked.Sublist history ∧ ∀ receipt ∈ history, receipt.From given
  /-- Every datom of a call that has returned at any time before the crash is there. -/
  returned : ∀ before after client receipts, actions = before ++ after →
    ((start db).run before).phase client = .done (.ok receipts) →
    ∀ receipt ∈ receipts, ∀ d ∈ receipt.datoms, d ∈ reopened.current.datomSet

/-- Whatever any number of lives have left behind, and at whatever step of another one the process
stops, recovery succeeds, keeps all that was ever published and adds nothing that no client wrote.
-/
theorem crashes_recover (hfaithful : Bincode.Faithful)
    (hshort : ∀ datoms, given datoms → ShortAttrs datoms) {acked : List TxReceipt} {db : Database}
    (h : Survives given acked db) {actions : List (Action ι)}
    (hsound : ∀ action ∈ actions, SoundAction given action) {file : Bytes}
    (hcrash : Leaves ((start db).run actions) file) (orders : Nat → IterOrder) :
    ∃ reopened, Database.recoverFromWal orders file = .ok reopened ∧
      CrashRecovered given (acked ++ (start db).receipts actions) db actions reopened := by
  obtain ⟨history, hopened, hsublist⟩ := h.opened hfaithful hshort
  obtain ⟨reopened, more, hrecover, hnext⟩ := hopened.recover hfaithful hshort hsound hcrash orders
  have hacked : (acked ++ (start db : Writers ι).receipts actions).Sublist
      (history ++ (start db : Writers ι).receipts actions ++ more) :=
    (hsublist.append_right _).trans (List.sublist_append_left _ _)
  refine ⟨reopened, hrecover, ⟨_, hnext.commits, hacked, hnext.stamped⟩, ?_⟩
  rintro before after client receipts rfl hdone receipt hreceipt d hd
  have hmem : receipt ∈ (start db : Writers ι).receipts (before ++ after) := by
    rw [receipts_append]
    exact List.mem_append_left _ (mem_receipts_of_done hdone hreceipt)
  have hkept := hacked.subset (List.mem_append_right _ hmem)
  exact hnext.commits.mem_datomSet.mpr (.inr ⟨receipt, hkept, hd⟩)

end Writers

end Crashes

open Sample

/-- A client writes a transaction to the log. -/
def Sample.logged : List (Action Bool) :=
  .begin true (.transact document) (envAt 1 .complete (.ok ())) ::
    List.replicate 7 (.advance true)

/-- The file of the log when the process stops behind the entry of the transaction. -/
def Sample.fileLeft : Bytes :=
  ((Writers.start Database.genesisWithWal).run logged).db.wal.elim [] Log.file

/-- The datoms of the document transaction have short attributes. -/
theorem Sample.shortAttrs_of_document :
    ∀ datoms, datoms = document.datoms → ShortAttrs datoms := by
  intro datoms hdatoms
  rw [hdatoms]
  exact shortAttrs_document

/-- The sample run writes the document transaction only. -/
theorem Sample.sound_logged :
    ∀ action ∈ logged, Writers.SoundAction (· = document.datoms) action := by
  intro action haction
  rcases List.mem_cons.mp haction with heq | hrest
  · rw [heq]
    refine ⟨fun transaction htransaction => ?_, fun _ => rfl⟩
    rw [List.mem_singleton.mp htransaction]
  · rw [List.eq_of_mem_replicate hrest]
    trivial

/-- A crash after the sample run may leave the sample file. -/
theorem Sample.leaves_fileLeft :
    Writers.Leaves ((Writers.start Database.genesisWithWal).run logged) fileLeft := by
  have hopened : Writers.Opened (· = document.datoms) [] Database.genesisWithWal :=
    Writers.opened_genesisWithWal
  obtain ⟨extra, hlogged⟩ := (Writers.logged_start hopened.log hopened.stamped).run
    (Writers.inv_start Database.genesisWithWal) sound_logged
  obtain ⟨wal, hwal, -⟩ := hlogged.log
  have hfile : fileLeft = wal.file := by
    rw [fileLeft, hwal]
    rfl
  rw [hfile]
  exact Writers.leaves_whole hwal

/-- The process stops between the write to the log and the publication. -/
theorem Writers.crashes_recover_document :
    ∃ reopened, Database.recoverFromWal (fun _ => .arrival) fileLeft = .ok reopened ∧
      CrashRecovered (· = document.datoms) ((start Database.genesisWithWal).receipts logged)
        Database.genesisWithWal logged reopened := by
  have hrecovers := crashes_recover Bincode.faithful_reference shortAttrs_of_document .created
    sound_logged leaves_fileLeft fun _ => .arrival
  rwa [List.nil_append] at hrecovers

end Ferratomic
