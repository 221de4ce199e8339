import Ferratomic.Db.Lifetimes
import Ferratomic.Observer

/-!
# Concurrent writers

Any number of clients call `transact`, `transact_signed` and `batch_transact` on one database and
register observers. A call takes a slot of the limiter and tries the write lock; under the lock it
ticks the clock, snapshots the frontier, loads the published store, applies its transactions to a
copy, writes the log entry by entry, publishes the copy and advances the frontier. It then releases
the lock and the slot and, if it has committed something, passes it to the observers under a mutex
of their own, for which it waits. Each of these is a step, and the steps of the clients interleave
in any order. The lemmas say what one step of one client does in each phase of its call
(`Phase.advanced`).
-/

namespace Ferratomic

open Lib

/-- What the clock gave a call: the identifier of one transaction, with the key if it is to be
signed, or the identifiers of a batch. -/
inductive Ticket where
  | single (transaction : Transaction) (key : Option SigningKey) (txId : TxId)
  | batch (batches : List (List Datom × TxId))

/-- The identifiers of a ticket. -/
def Ticket.txIds : Ticket → List TxId
  | single _ _ txId => [txId]
  | batch batches => batches.map Prod.snd

section Phases

variable [Blake3]

/-- Apply the transactions of a ticket to a copy of the loaded store: the receipts, the store to
publish and the identifier to advance the frontier to, which a batch does not. -/
def Ticket.apply (env : Env) (frontier : Frontier) (store : Store) :
    Ticket → Except FerraError (List TxReceipt × Store × Option TxId)
  | single transaction key txId =>
      let preds := frontier.toList.map fun entry => txEntityFromTxid entry.2
      let signing := key.map fun key => signTransaction
        ⟨transaction.datoms, txId, preds, (Database.fromStore store).storeFingerprint⟩ key
      match Store.transact (env.order 0) store transaction
        ⟨txId, some frontier, signing, .observed⟩ with
      | (.error e, _) => .error e
      | (.ok receipt, store) => .ok ([receipt], store, some txId)
  | batch batches =>
      match Store.batchSpliceTransact env.order store batches with
      | (.error e, _) => .error e
      | (.ok receipts, store) => .ok (receipts, store, none)

/-- The clock tick of `transact` and `transact_signed` under the lock. -/
def Ticket.tick (clock : HybridClock) (env : Env) (transaction : Transaction)
    (key : Option SigningKey) : Except FerraError Ticket × HybridClock :=
  match clock.tick (env.now 0) with
  | (.error e, clock) => (.error e, clock)
  | (.ok txId, clock) => (.ok (.single transaction key txId), clock)

/-- The clock ticks of a call under the lock. -/
def Call.tick (clock : HybridClock) (env : Env) : Call → Except FerraError Ticket × HybridClock
  | transact transaction => Ticket.tick clock env transaction none
  | transactSigned transaction key => Ticket.tick clock env transaction (some key)
  | batchTransact transactions =>
      match Database.tickBatches clock env 0 transactions with
      | (.error e, clock) => (.error e, clock)
      | (.ok batches, clock) => (.ok (.batch batches), clock)

/-- What a client does under the mutex of the observers: it passes on the receipts of its call, with
the published store that it has loaded before, or it registers an observer. -/
inductive ObserverAccess where
  | notify (receipts : List TxReceipt) (published : Store)
  | register (filter : Option DatomFilter)

/-- The receipts that the client returns afterwards. -/
def ObserverAccess.receipts : ObserverAccess → List TxReceipt
  | notify receipts _ => receipts
  | register _ => []

/-- The call of the broadcast. A registration loads the store that is published at that time. The
callbacks of the observers return. -/
def ObserverAccess.apply (broadcast : ObserverBroadcast) (current : Store) :
    ObserverAccess → ObserverBroadcast
  | notify receipts published =>
      match receipts.getLast? with
      | none => broadcast
      | some last => broadcast.publish last.epoch (receipts.flatMap TxReceipt.datoms) published
  | register filter => broadcast.register filter current

/-- Where a call stands. From `locked` to `unlocking` it holds the write lock, and `delivering` it
holds the mutex of the observers. -/
inductive Phase where
  | done (result : Except FerraError (List TxReceipt))
  | entered (call : Call) (env : Env)
  | overLimit
  | slotted (call : Call) (env : Env)
  | locked (call : Call) (env : Env)
  | ticked (env : Env) (ticket : Ticket)
  | snapped (env : Env) (ticket : Ticket) (frontier : Frontier)
  | loaded (env : Env) (ticket : Ticket) (frontier : Frontier) (store : Store)
  | logging (env : Env) (index : Nat) (receipts : List TxReceipt) (store : Store)
      (advance : Option TxId)
  | published (receipts : List TxReceipt) (advance : Option TxId)
  | unlocking (result : Except FerraError (List TxReceipt))
  | releasing (result : Except FerraError (List TxReceipt))
  | notifying (receipts : List TxReceipt)
  | waiting (access : ObserverAccess)
  | delivering (access : ObserverAccess)

/-- What follows the release of the slot: `notify_observers`, if the call has committed something.
-/
def Phase.released : Except FerraError (List TxReceipt) → Phase
  | .ok (receipt :: rest) => .notifying (receipt :: rest)
  | result => .done result

/-- The call holds the write lock. -/
def Phase.critical : Phase → Bool
  | locked _ _ => true
  | ticked _ _ => true
  | snapped _ _ _ => true
  | loaded _ _ _ _ => true
  | logging _ _ _ _ _ => true
  | published _ _ => true
  | unlocking _ => true
  | _ => false

/-- What the next step of the call publishes: the store, once all entries are written. -/
def Phase.publishes : Phase → Option (List TxReceipt × Store)
  | logging _ index receipts store _ =>
      if receipts[index]? = none then some (receipts, store) else none
  | _ => none

/-- The receipts that the call will return, once it can no longer fail. -/
def Phase.returns : Phase → Option (List TxReceipt)
  | published receipts _ => some receipts
  | unlocking (.ok receipts) => some receipts
  | releasing (.ok receipts) => some receipts
  | notifying receipts => some receipts
  | waiting access => some access.receipts
  | delivering access => some access.receipts
  | done (.ok receipts) => some receipts
  | _ => none

variable [Bincode]

/-- A step under the lock, which acts on the database only. -/
def Phase.advance (db : Database) : Phase → Database × Phase
  | locked call env =>
      match call.tick db.clock env with
      | (.error e, clock) => ({ db with clock := clock }, .unlocking (.error e))
      | (.ok ticket, clock) => ({ db with clock := clock }, .ticked env ticket)
  | ticked env (.single transaction key txId) =>
      (db, .snapped env (.single transaction key txId) db.frontier)
  -- a batch has no use for the frontier and loads the store at once
  | ticked env (.batch batches) => (db, .loaded env (.batch batches) ∅ db.current)
  | snapped env ticket frontier => (db, .loaded env ticket frontier db.current)
  | loaded env ticket frontier store =>
      match ticket.apply env frontier store with
      | .error e => (db, .unlocking (.error e))
      | .ok (receipts, store, advance) => (db, .logging env 0 receipts store advance)
  | logging env index receipts store advance =>
      match receipts[index]? with
      | some receipt =>
          match db.writeWal (env.write index) (env.sync index) receipt with
          | (.error e, db) => (db, .unlocking (.error e))
          | (.ok (), db) => (db, .logging env (index + 1) receipts store advance)
      | none => ({ db with current := store }, .published receipts advance)
  | published receipts advance =>
      match advance with
      | none => (db, .unlocking (.ok receipts))
      | some txId =>
          ({ db with frontier := db.frontier.advance txId.node txId }, .unlocking (.ok receipts))
  | phase => (db, phase)

/-- `max_concurrent_writes` of the default policy. -/
def maxConcurrentWrites : Nat := 64

/-- A database with its writers: the slots in use, the owner of the write lock, the observers and
the owner of their mutex, and where the call of each client stands. -/
structure Writers (ι : Type) where
  db : Database
  active : Nat
  owner : Option ι
  observers : ObserverBroadcast
  notifier : Option ι
  phase : ι → Phase

/-- An action: a client begins a call, begins to register an observer or takes the next step of its
call. -/
inductive Action (ι : Type) where
  | begin (client : ι) (call : Call) (env : Env)
  | register (client : ι) (filter : Option DatomFilter)
  | advance (client : ι)

/-- The first step of a call: an empty batch returns before it asks for a slot. -/
def Call.enter (env : Env) : Call → Phase
  | batchTransact [] => .done (.ok [])
  | call => .entered call env

namespace Writers

variable {ι : Type} [DecidableEq ι]

/-- A database that no client has called. -/
def start (db : Database) : Writers ι :=
  ⟨db, 0, none, .new defaultObserverBuffer, none, fun _ => .done (.ok [])⟩

/-- One step. A client begins a call only when its last one has returned, and it stays where it is
when it waits for the mutex of the observers and another client holds it. -/
def step (state : Writers ι) : Action ι → Writers ι
  | .begin client call env =>
      match state.phase client with
      | .done _ => { state with phase := Function.update state.phase client (call.enter env) }
      | _ => state
  | .register client filter =>
      match state.phase client with
      | .done _ =>
          { state with phase := Function.update state.phase client (.waiting (.register filter)) }
      | _ => state
  | .advance client =>
      match state.phase client with
      | .done _ => state
      | .entered call env =>
          { state with
            active := state.active + 1
            phase := Function.update state.phase client
              (if maxConcurrentWrites ≤ state.active then .overLimit else .slotted call env) }
      | .overLimit =>
          { state with
            active := state.active - 1
            phase := Function.update state.phase client (.done (.error .backpressure)) }
      | .slotted call env =>
          match state.owner with
          | none =>
              { state with
                owner := some client
                phase := Function.update state.phase client (.locked call env) }
          | some _ =>
              { state with
                phase := Function.update state.phase client (.releasing (.error .backpressure)) }
      | .unlocking result =>
          { state with
            owner := none
            phase := Function.update state.phase client (.releasing result) }
      | .releasing result =>
          { state with
            active := state.active - 1
            phase := Function.update state.phase client (.released result) }
      | .notifying receipts =>
          { state with
            phase := Function.update state.phase client
              (.waiting (.notify receipts state.db.current)) }
      | .waiting access =>
          match state.notifier with
          | none =>
              { state with
                notifier := some client
                phase := Function.update state.phase client (.delivering access) }
          | some _ => state
      | .delivering access =>
          { state with
            observers := access.apply state.observers state.db.current
            notifier := none
            phase := Function.update state.phase client (.done (.ok access.receipts)) }
      | phase =>
          { state with
            db := (phase.advance state.db).1
            phase := Function.update state.phase client (phase.advance state.db).2 }

/-- The state after a sequence of actions. -/
def run (state : Writers ι) : List (Action ι) → Writers ι
  | [] => state
  | action :: rest => (state.step action).run rest

/-- What an action publishes. -/
def publication (state : Writers ι) : Action ι → Option (List TxReceipt × Store)
  | .begin _ _ _ => none
  | .register _ _ => none
  | .advance client => (state.phase client).publishes

/-- What a sequence of actions publishes, in order, with the receipts of each call. -/
def publications (state : Writers ι) : List (Action ι) → List (List TxReceipt × Store)
  | [] => []
  | action :: rest => (state.publication action).toList ++ (state.step action).publications rest

/-- The receipts of a sequence of actions, in the order of their publication. -/
def receipts (state : Writers ι) (actions : List (Action ι)) : List TxReceipt :=
  (state.publications actions).flatMap Prod.fst

end Writers

/-- The published stores form a chain: each adds to the one before exactly the datoms of the
receipts of its call. -/
inductive PublishChain : Store → List (List TxReceipt × Store) → Store → Prop
  | nil (store : Store) : PublishChain store [] store
  | cons {store next last : Store} {receipts : List TxReceipt}
      {rest : List (List TxReceipt × Store)} :
      next.datomSet = store.datomSet ∪ (receipts.flatMap TxReceipt.datoms).toFinset →
      PublishChain next rest last → PublishChain store ((receipts, next) :: rest) last

/-- Identifiers that are new: they increase, lie above all published ones and the clock has
reached them. -/
structure Fresh (published : List TxId) (clock : HybridClock) (txIds : List TxId) : Prop where
  pairwise : txIds.Pairwise (· < ·)
  above : ∀ tx ∈ published, ∀ txId ∈ txIds, tx < txId
  covered : ∀ txId ∈ txIds, clock.Covers txId

/-- What is known of a call under the lock, when the given identifiers are published. -/
def Phase.Valid (published : List TxId) (db : Database) : Phase → Prop
  | ticked _ ticket => Fresh published db.clock ticket.txIds
  | snapped _ ticket _ => Fresh published db.clock ticket.txIds
  | loaded _ ticket _ store => Fresh published db.clock ticket.txIds ∧ store = db.current
  | logging _ _ receipts store _ => ∃ txIds, Fresh published db.clock txIds ∧
      List.Forall₂ StampedWith txIds receipts ∧ Commits db.current.obs receipts store.obs
  | _ => True

omit [Bincode] in
/-- A phase outside the critical section is valid at every database. -/
theorem Phase.valid_of_not_critical {phase : Phase} (h : phase.critical = false)
    (published : List TxId) (db : Database) : phase.Valid published db := by
  cases phase with
  | ticked => cases h
  | snapped => cases h
  | loaded => cases h
  | logging => cases h
  | _ => trivial

omit [Blake3] [Bincode] in
/-- Identifiers ticked by a clock that covers the published ones are fresh. -/
theorem Ticks.fresh {env : Env} {clock last : HybridClock} {txIds published : List TxId}
    (h : Ticks env 0 clock txIds last) (hcovers : ∀ tx ∈ published, clock.Covers tx) :
    Fresh published last txIds := by
  obtain ⟨hcovered, hpairwise⟩ := h.issued
  exact ⟨hpairwise, fun tx htx => h.lt (hcovers tx htx), hcovered⟩

omit [Blake3] [Bincode] in
/-- A ticket takes the identifiers that its clock ticks. -/
theorem Ticket.tick_ticks (clock : HybridClock) (env : Env) (transaction : Transaction)
    (key : Option SigningKey) :
    ∃ txIds, Ticks env 0 clock txIds (Ticket.tick clock env transaction key).2 ∧
      ∀ ticket, (Ticket.tick clock env transaction key).1 = .ok ticket → ticket.txIds = txIds := by
  unfold Ticket.tick
  rcases htick : clock.tick (env.now 0) with ⟨e | txId, next⟩
  · have hclock := HybridClock.tick_error (congrArg Prod.fst htick)
    rw [htick] at hclock
    subst hclock
    exact ⟨[], .nil 0 _, fun ticket h => nomatch h⟩
  · refine ⟨[txId], .cons htick (.nil 1 next), fun ticket h => ?_⟩
    cases h
    rfl

omit [Blake3] [Bincode] in
/-- A call ticks the clock, and its ticket carries what the ticks issued. -/
theorem Call.tick_ticks (clock : HybridClock) (env : Env) (call : Call) :
    ∃ txIds, Ticks env 0 clock txIds (call.tick clock env).2 ∧
      ∀ ticket, (call.tick clock env).1 = .ok ticket → ticket.txIds = txIds := by
  cases call with
  | transact transaction => exact Ticket.tick_ticks clock env transaction none
  | transactSigned transaction key => exact Ticket.tick_ticks clock env transaction (some key)
  | batchTransact transactions =>
      obtain ⟨txIds, hticks, hok⟩ := Database.tickBatches_ticks env clock 0 transactions
      refine ⟨txIds, ?_⟩
      simp only [Call.tick]
      rcases htick : Database.tickBatches clock env 0 transactions with ⟨e | batches, next⟩
      · rw [htick] at hticks
        exact ⟨hticks, fun ticket h => nomatch h⟩
      · rw [htick] at hticks hok
        refine ⟨hticks, fun ticket h => ?_⟩
        cases h
        exact (hok batches rfl).1

omit [Bincode] in
/-- What applying the transactions of a ticket gives. -/
theorem Ticket.apply_ok {env : Env} {frontier : Frontier} {store next : Store} {ticket : Ticket}
    {receipts : List TxReceipt} {advance : Option TxId}
    (h : ticket.apply env frontier store = .ok (receipts, next, advance)) :
    List.Forall₂ StampedWith ticket.txIds receipts ∧ Commits store.obs receipts next.obs := by
  cases ticket with
  | single transaction key txId =>
      unfold Ticket.apply at h
      simp only at h
      split at h
      case h_1 => cases h
      case h_2 receipt next' htransact =>
          cases h
          obtain ⟨hdatoms, hcommits⟩ := Store.transact_ok (congrArg Prod.fst htransact)
          rw [htransact] at hcommits
          exact ⟨.cons (stampedWith_of_datoms _ hdatoms) .nil, hcommits⟩
  | batch batches =>
      unfold Ticket.apply at h
      simp only at h
      split at h
      case h_1 => cases h
      case h_2 receipts' next' hsplice =>
          cases h
          obtain ⟨hdatoms, hcommits⟩ := Store.batchSpliceTransact_ok (congrArg Prod.fst hsplice)
          rw [hsplice] at hcommits
          exact ⟨Database.forall₂_stampedWith hdatoms, hcommits⟩

/-- What a step under the lock does: it publishes transactions with new identifiers, or none. -/
structure Phase.Advanced (published : List TxId) (db : Database) (phase : Phase)
    (txIds : List TxId) : Prop where
  current : (phase.advance db).1.current = phase.publishes.elim db.current Prod.snd
  commits : Commits db.current.obs (phase.publishes.elim [] Prod.fst)
    (phase.advance db).1.current.obs
  stamped : List.Forall₂ StampedWith txIds (phase.publishes.elim [] Prod.fst)
  fresh : Fresh published (phase.advance db).1.clock txIds
  covered : ∀ tx ∈ published, (phase.advance db).1.clock.Covers tx
  valid : (phase.advance db).2.Valid (published ++ txIds) (phase.advance db).1

/-- A step that publishes nothing. -/
theorem Phase.Advanced.quiet {published : List TxId} {db next : Database} {phase later : Phase}
    (hadvance : phase.advance db = (next, later)) (hpublishes : phase.publishes = none)
    (hcurrent : next.current = db.current) (hcovered : ∀ tx ∈ published, next.clock.Covers tx)
    (hvalid : later.Valid published next) : phase.Advanced published db [] := by
  refine ⟨?_, ?_, ?_, ?_, ?_, ?_⟩
  · rw [hpublishes, hadvance, hcurrent]
    rfl
  · rw [hpublishes, hadvance, hcurrent]
    exact Commits.refl _
  · rw [hpublishes]
    exact .nil
  · exact ⟨.nil, fun _ _ _ h => absurd h List.not_mem_nil, fun _ h => absurd h List.not_mem_nil⟩
  · rw [hadvance]
    exact hcovered
  · rw [hadvance, List.append_nil]
    exact hvalid

variable {published : List TxId} {db : Database}

/-- Taking the write lock publishes nothing. -/
theorem advanced_locked (hcovers : ∀ tx ∈ published, db.clock.Covers tx) (call : Call)
    (env : Env) : (Phase.locked call env).Advanced published db [] := by
  obtain ⟨txIds, hticks, hok⟩ := call.tick_ticks db.clock env
  have hcovered : ∀ tx ∈ published, (call.tick db.clock env).2.Covers tx :=
    fun tx htx => hticks.covers (hcovers tx htx)
  have hfresh := hticks.fresh hcovers
  rcases htick : call.tick db.clock env with ⟨e | ticket, clock⟩
  · rw [htick] at hcovered
    have hadvance : (Phase.locked call env).advance db =
        ({ db with clock := clock }, .unlocking (.error e)) := by
      simp only [Phase.advance, htick]
    exact .quiet hadvance rfl rfl hcovered trivial
  · rw [htick] at hcovered hfresh hok
    have hadvance : (Phase.locked call env).advance db =
        ({ db with clock := clock }, .ticked env ticket) := by
      simp only [Phase.advance, htick]
    rw [← hok ticket rfl] at hfresh
    exact .quiet hadvance rfl rfl hcovered hfresh

/-- Applying what was loaded publishes nothing. -/
theorem advanced_loaded (hcovers : ∀ tx ∈ published, db.clock.Covers tx) {env : Env}
    {ticket : Ticket} {frontier : Frontier} {store : Store}
    (hvalid : (Phase.loaded env ticket frontier store).Valid published db) :
    (Phase.loaded env ticket frontier store).Advanced published db [] := by
  obtain ⟨hfresh, rfl⟩ := hvalid
  cases happly : ticket.apply env frontier db.current with
  | error e =>
      have hadvance : (Phase.loaded env ticket frontier db.current).advance db =
          (db, .unlocking (.error e)) := by
        simp only [Phase.advance, happly]
      exact .quiet hadvance rfl rfl hcovers trivial
  | ok applied =>
      obtain ⟨receipts, next, advance⟩ := applied
      have hadvance : (Phase.loaded env ticket frontier db.current).advance db =
          (db, .logging env 0 receipts next advance) := by
        simp only [Phase.advance, happly]
      obtain ⟨hstamped, hcommits⟩ := Ticket.apply_ok happly
      exact .quiet hadvance rfl rfl hcovers ⟨ticket.txIds, hfresh, hstamped, hcommits⟩

/-- The entries of the log are written one by one, and then the store is published. -/
theorem advanced_logging (hcovers : ∀ tx ∈ published, db.clock.Covers tx) {env : Env}
    {index : Nat} {receipts : List TxReceipt} {store : Store} {advance : Option TxId}
    (hvalid : (Phase.logging env index receipts store advance).Valid published db) :
    ∃ txIds, (Phase.logging env index receipts store advance).Advanced published db txIds := by
  cases hentry : receipts[index]? with
  | some receipt =>
      obtain ⟨result, attached, hwrite⟩ :=
        Database.writeWal_same db (env.write index) (env.sync index) receipt
      have hpublishes : (Phase.logging env index receipts store advance).publishes = none := by
        simp [Phase.publishes, hentry]
      refine ⟨[], ?_⟩
      cases result with
      | error e =>
          have hadvance : (Phase.logging env index receipts store advance).advance db =
              ({ db with wal := attached }, .unlocking (.error e)) := by
            simp only [Phase.advance, hentry, hwrite]
          exact .quiet hadvance hpublishes rfl hcovers trivial
      | ok _ =>
          have hadvance : (Phase.logging env index receipts store advance).advance db =
              ({ db with wal := attached }, .logging env (index + 1) receipts store advance) := by
            simp only [Phase.advance, hentry, hwrite]
          exact .quiet hadvance hpublishes rfl hcovers hvalid
  | none =>
      obtain ⟨txIds, hfresh, hstamped, hcommits⟩ := hvalid
      have hpublishes : (Phase.logging env index receipts store advance).publishes =
          some (receipts, store) := by
        simp [Phase.publishes, hentry]
      have hadvance : (Phase.logging env index receipts store advance).advance db =
          ({ db with current := store }, .published receipts advance) := by
        simp only [Phase.advance, hentry]
      refine ⟨txIds, ?_, ?_, ?_, ?_, ?_, ?_⟩
      · rw [hadvance, hpublishes]
        rfl
      · rw [hadvance, hpublishes]
        exact hcommits
      · rw [hpublishes]
        exact hstamped
      · rw [hadvance]
        exact hfresh
      · rw [hadvance]
        exact hcovers
      · rw [hadvance]
        trivial

/-- What a step under the lock does, from what is known of the call before it. -/
theorem Phase.advanced (hcovers : ∀ tx ∈ published, db.clock.Covers tx) {phase : Phase}
    (hvalid : phase.Valid published db) : ∃ txIds, phase.Advanced published db txIds := by
  cases phase with
  | locked call env => exact ⟨[], advanced_locked hcovers call env⟩
  | ticked env ticket =>
      cases ticket with
      | single transaction key txId => exact ⟨[], .quiet rfl rfl rfl hcovers hvalid⟩
      | batch batches => exact ⟨[], .quiet rfl rfl rfl hcovers ⟨hvalid, rfl⟩⟩
  | snapped env ticket frontier => exact ⟨[], .quiet rfl rfl rfl hcovers ⟨hvalid, rfl⟩⟩
  | loaded env ticket frontier store => exact ⟨[], advanced_loaded hcovers hvalid⟩
  | logging env index receipts store advance => exact advanced_logging hcovers hvalid
  | published receipts advance =>
      cases advance with
      | none => exact ⟨[], .quiet rfl rfl rfl hcovers trivial⟩
      | some txId => exact ⟨[], .quiet rfl rfl rfl hcovers trivial⟩
  | done => exact ⟨[], .quiet rfl rfl rfl hcovers trivial⟩
  | entered => exact ⟨[], .quiet rfl rfl rfl hcovers trivial⟩
  | overLimit => exact ⟨[], .quiet rfl rfl rfl hcovers trivial⟩
  | slotted => exact ⟨[], .quiet rfl rfl rfl hcovers trivial⟩
  | unlocking => exact ⟨[], .quiet rfl rfl rfl hcovers trivial⟩
  | releasing => exact ⟨[], .quiet rfl rfl rfl hcovers trivial⟩
  | notifying => exact ⟨[], .quiet rfl rfl rfl hcovers trivial⟩
  | waiting => exact ⟨[], .quiet rfl rfl rfl hcovers trivial⟩
  | delivering => exact ⟨[], .quiet rfl rfl rfl hcovers trivial⟩

/-- A step under the lock keeps the lock. -/
theorem Phase.critical_advance {phase : Phase} (h : phase.critical = true) (db : Database) :
    (phase.advance db).2.critical = true := by
  fun_cases Phase.advance db phase with
  | case13 => exact h
  | _ => rfl

/-- The receipts to return are known from the publication on. -/
theorem Phase.returns_advance {phase : Phase} {receipts : List TxReceipt}
    (h : (phase.advance db).2.returns = some receipts) :
    phase.returns = some receipts ∨ ∃ store, phase.publishes = some (receipts, store) := by
  revert h
  fun_cases Phase.advance db phase with
  | case10 env index receipts' store advance hentry =>
      intro h
      cases h
      exact .inr ⟨store, by simp [Phase.publishes, hentry]⟩
  | case11 => exact .inl
  | case12 => exact .inl
  | case13 => exact .inl
  | _ =>
      intro h
      cases h

omit [Bincode] in
/-- What a call returns is known before it releases its slot. -/
theorem Phase.returns_released (result : Except FerraError (List TxReceipt)) :
    (Phase.released result).returns = (Phase.releasing result).returns := by
  fun_cases Phase.released result with
  | case1 => rfl
  | case2 =>
      cases result with
      | error e => rfl
      | ok receipts => rfl

omit [Bincode] in
/-- Behind the release of the slot nothing is known or held. -/
theorem Phase.critical_released (result : Except FerraError (List TxReceipt)) :
    (Phase.released result).critical = false ∧
      ∀ published db, (Phase.released result).Valid published db := by
  fun_cases Phase.released result with
  | case1 => exact ⟨rfl, fun _ _ => trivial⟩
  | case2 => exact ⟨rfl, fun _ _ => trivial⟩

omit [Bincode] in
/-- A call that returns at once returns no receipts. -/
theorem Call.returns_enter {call : Call} {env : Env} {receipts : List TxReceipt}
    (h : (call.enter env).returns = some receipts) : receipts = [] := by
  revert h
  fun_cases Call.enter env call with
  | case1 =>
      intro h
      cases h
      rfl
  | case2 =>
      intro h
      cases h

end Phases

end Ferratomic
