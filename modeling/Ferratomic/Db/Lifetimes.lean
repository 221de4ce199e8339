import Ferratomic.Db.Durability
import Ferratomic.Db.Ticks

/-!
# The lifetimes of a store

A store outlives its database: it is opened, written, closed and opened again, from its log, from
a checkpoint or as a store. Every opening starts a fresh clock and an empty frontier, whatever the
store holds. `Lives` gives the databases that a store passes through. The main theorems say when
identifiers increase over all lifetimes (`txIds_increase`) and when the frontier shows the latest
transaction of the clock's node (`frontier_complete`); `reopened_clock_regresses` and
`batch_leaves_frontier` are lives in which they do not.
-/

namespace Ferratomic

open Lib

section Fresh

/-- The first identifier of a fresh clock is not before its wall clock. -/
theorem HybridClock.le_tick_new {node : NodeId} {now : Nat → UInt64} {txId : TxId}
    (h : ((HybridClock.new node).tick now).1 = .ok txId) : (⟨now 0, 0, node⟩ : TxId) ≤ txId := by
  unfold HybridClock.tick at h
  split at h
  case isTrue =>
      cases h
      exact le_refl _
  case isFalse hnow =>
      -- the wall clock shows zero, so the logical counter moves
      have hzero : now 0 = 0 := by
        show now 0 = 0
        have hle : (now 0).toNat ≤ (0 : UInt64).toNat := UInt64.le_iff_toNat_le.mp (not_lt.mp hnow)
        exact UInt64.toNat_inj.mp (Nat.le_zero.mp hle)
      rw [if_pos (by show (0 : UInt32).toNat + 1 < 2 ^ 32; decide)] at h
      cases h
      rw [hzero]
      refine le_of_lt (TxId.lt_iff.mpr (.inr ⟨rfl, .inl ?_⟩))
      show (0 : UInt32) < 0 + 1
      decide

/-- A fresh clock whose wall clock is ahead of an identifier issues greater ones only, and has
reached the identifier once it has ticked. -/
theorem Ticks.ahead {env : Env} {node : NodeId} {last : HybridClock} {txIds : List TxId}
    (h : Ticks env 0 (HybridClock.new node) txIds last) {tx : TxId}
    (hahead : tx < ⟨env.now 0 0, 0, node⟩) :
    (∀ txId ∈ txIds, tx < txId) ∧ (txIds = [] ∨ last.Covers tx) := by
  cases h with
  | nil => exact ⟨fun txId h => absurd h List.not_mem_nil, .inl rfl⟩
  | cons htick hrest =>
      have hfirst := hahead.trans_le (HybridClock.le_tick_new (congrArg Prod.fst htick))
      have hreached := HybridClock.covers_tick (congrArg Prod.fst htick)
      rw [htick] at hreached
      have hcovers := hreached.of_lt hfirst
      exact ⟨List.forall_mem_cons.mpr ⟨hfirst, hrest.lt hcovers⟩, .inr (hrest.covers hcovers)⟩

end Fresh

section Lives

variable [Blake3] [Bincode]

/-- The ways to open a database. The store or the files may be those that an earlier lifetime
left. -/
inductive Opening where
  | genesis
  | genesisWithWal
  | fromStore (store : Store)
  | fromStoreWithWal (store : Store)
  | recoverFromWal (orders : Nat → IterOrder) (file : Bytes)
  | recover (orders : Nat → IterOrder) (checkpoint file : Bytes)

/-- The database that an opening gives. -/
def Opening.database : Opening → Except FerraError Database
  | genesis => .ok Database.genesis
  | genesisWithWal => .ok Database.genesisWithWal
  | fromStore store => .ok (Database.fromStore store)
  | fromStoreWithWal store => .ok (Database.fromStoreWithWal store)
  | recoverFromWal orders file => Database.recoverFromWal orders file
  | recover orders checkpoint file => Database.recover orders checkpoint file

/-- Every opening builds the database around a store, with a fresh clock and no frontier. -/
theorem Opening.database_ok {opening : Opening} {db : Database} (h : opening.database = .ok db) :
    ∃ store attached, db = Database.build store attached := by
  cases opening with
  | genesis =>
      cases h
      exact ⟨_, _, rfl⟩
  | genesisWithWal =>
      cases h
      exact ⟨_, _, rfl⟩
  | fromStore store =>
      cases h
      exact ⟨_, _, rfl⟩
  | fromStoreWithWal store =>
      cases h
      exact ⟨_, _, rfl⟩
  | recoverFromWal orders file =>
      simp only [Opening.database, Database.recoverFromWal] at h
      split at h
      case h_1 => cases h
      case h_2 store _ =>
          cases h
          exact ⟨store, _, rfl⟩
  | recover orders checkpoint file =>
      simp only [Opening.database, Database.recover] at h
      split at h
      case h_1 => cases h
      case h_2 =>
          split at h
          case h_1 => cases h
          case h_2 store _ =>
              cases h
              exact ⟨store, _, rfl⟩

/-- The databases that a store passes through over its lifetimes, when every opened database and
every call meets a condition. -/
inductive Lives (opens : Database → Prop) (calls : Database → Call → Env → Prop) :
    Database → Prop
  | opened {opening : Opening} {db : Database} : opening.database = .ok db → opens db →
      Lives opens calls db
  | stepped {db : Database} {call : Call} {env : Env} : Lives opens calls db → calls db call env →
      Lives opens calls (db.step call env).2

end Lives

namespace Database

section Increase

variable [Blake3]

/-- A call on a clock that has issued nothing finds its wall clock ahead of every identifier in the
store. -/
def ClockAhead (db : Database) (call : Call) (env : Env) : Prop :=
  db.clock = HybridClock.new db.clock.node → call.transactions ≠ [] →
    ∀ d ∈ db.current.datomSet, d.tx < ⟨env.now 0 0, 0, db.clock.node⟩

/-- The clock has reached every identifier in the store, or it has issued nothing. -/
def ClockReached (db : Database) : Prop :=
  db.clock = HybridClock.new db.clock.node ∨ ∀ d ∈ db.current.datomSet, db.clock.Covers d.tx

/-- What the ticks of a call issue is beyond the store, and the clock afterwards has reached it. -/
theorem ClockReached.beyond {db : Database} (h : db.ClockReached) {call : Call} {env : Env}
    (hahead : db.ClockAhead call env) (hne : call.transactions ≠ []) {txIds : List TxId}
    {last : HybridClock} (hticks : Ticks env 0 db.clock txIds last) {d : Datom}
    (hd : d ∈ db.current.datomSet) :
    (∀ txId ∈ txIds, d.tx < txId) ∧ (txIds = [] ∨ last.Covers d.tx) := by
  by_cases hfresh : db.clock = HybridClock.new db.clock.node
  · rw [hfresh] at hticks
    exact hticks.ahead (hahead hfresh hne d hd)
  · have hcovers := (h.resolve_left hfresh) d hd
    exact ⟨hticks.lt hcovers, .inr (hticks.covers hcovers)⟩

/-- The invariant after the ticks of a call, over a store that has only gained datoms with the
issued identifiers. -/
theorem ClockReached.of_ticks {db db' : Database} (h : db.ClockReached) {call : Call} {env : Env}
    (hahead : db.ClockAhead call env) (hne : call.transactions ≠ []) {txIds : List TxId}
    (hticks : Ticks env 0 db.clock txIds db'.clock)
    (hdatoms : ∀ d ∈ db'.current.datomSet, d ∈ db.current.datomSet ∨ d.tx ∈ txIds) :
    db'.ClockReached := by
  by_cases hnone : txIds = []
  · -- nothing was issued, so the clock and the store are as before
    subst hnone
    have hclock := hticks.eq_of_nil
    have hold (d : Datom) (hd : d ∈ db'.current.datomSet) : d ∈ db.current.datomSet :=
      (hdatoms d hd).resolve_right List.not_mem_nil
    rw [ClockReached, hclock]
    exact h.imp_right fun hcovers d hd => hcovers d (hold d hd)
  · refine .inr fun d hd => ?_
    rcases hdatoms d hd with hold | hnew
    · exact (h.beyond hahead hne hticks hold).2.resolve_left hnone
    · exact hticks.issued.1 d.tx hnew

variable [Bincode]

/-- A call without transactions moves neither the store nor the clock. -/
theorem step_of_transactions_eq_nil (db : Database) {call : Call} (env : Env)
    (h : call.transactions = []) : db.step call env = (.ok [], db) := by
  cases call with
  | transact => cases h
  | transactSigned => cases h
  | batchTransact transactions =>
      obtain rfl : transactions = [] := h
      rfl

/-- A call keeps the invariant. -/
theorem ClockReached.step {db : Database} (h : db.ClockReached) {call : Call} {env : Env}
    (hahead : db.ClockAhead call env) : (db.step call env).2.ClockReached := by
  by_cases hempty : call.transactions = []
  · rw [step_of_transactions_eq_nil db env hempty]
    exact h
  cases hresult : (db.step call env).1 with
  | error e =>
      obtain ⟨txIds, hticks, -⟩ := stage_ticks db env call
      rw [← clock_step] at hticks
      refine h.of_ticks hahead hempty hticks fun d hd => .inl ?_
      rwa [(step_error hresult).1] at hd
  | ok receipts =>
      obtain ⟨txIds, hpublished⟩ := step_published hresult
      refine h.of_ticks hahead hempty hpublished.ticks fun d hd => ?_
      rcases hpublished.commits.mem_datomSet.mp hd with hold | ⟨receipt, hreceipt, hnew⟩
      · exact .inl hold
      · exact .inr (hpublished.exists_tx.mp ⟨receipt, hreceipt, d, hnew, rfl⟩)

/-- In lives whose clocks are ahead the clock has reached every identifier. -/
theorem clockReached_of_lives {db : Database} (h : Lives (fun _ => True) ClockAhead db) :
    db.ClockReached := by
  induction h with
  | opened hopening _ =>
      obtain ⟨store, attached, rfl⟩ := Opening.database_ok hopening
      exact .inl rfl
  | stepped _ hahead ih => exact ih.step hahead

/-- Over all lifetimes of a store in which the first call after each opening finds its wall clock
ahead of the store, every identifier that a call assigns is greater than that of every datom
already in the store. -/
theorem txIds_increase {db : Database} (hlives : Lives (fun _ => True) ClockAhead db)
    {call : Call} {env : Env} (hahead : db.ClockAhead call env) {receipts : List TxReceipt}
    (hok : (db.step call env).1 = .ok receipts) :
    ∀ receipt ∈ receipts, ∀ d ∈ receipt.datoms, ∀ old ∈ db.current.datomSet, old.tx < d.tx := by
  intro receipt hreceipt d hd old hold
  obtain ⟨txIds, hpublished⟩ := step_published hok
  have hissued : d.tx ∈ txIds := hpublished.exists_tx.mp ⟨receipt, hreceipt, d, hd, rfl⟩
  have hne : call.transactions ≠ [] := by
    intro hempty
    rw [step_of_transactions_eq_nil db env hempty] at hok
    cases hok
    exact absurd hreceipt List.not_mem_nil
  exact ((clockReached_of_lives hlives).beyond hahead hne hpublished.ticks hold).1 d.tx hissued

end Increase

section FrontierComplete

variable [Blake3]

/-- The identifiers of the clock's node in the published store. -/
def nodeTxIds (db : Database) : Set TxId :=
  {tx | tx.node = db.clock.node ∧ ∃ d ∈ db.current.datomSet, d.tx = tx}

/-- The frontier maps the clock's node to its greatest identifier in the published store. -/
def FrontierComplete (db : Database) : Prop :=
  ∀ tx, db.frontier[db.clock.node]? = some tx ↔ IsGreatest db.nodeTxIds tx

/-- A frontier without an entry for the clock's node is incomplete once the store has an
identifier of that node. -/
theorem not_frontierComplete {db : Database} (hnonempty : db.nodeTxIds.Nonempty)
    (hnone : db.frontier[db.clock.node]? = none) : ¬db.FrontierComplete := by
  intro hcomplete
  -- the identifiers of the store are finitely many, so one of them is the greatest
  have hfinite : db.nodeTxIds.Finite := by
    refine (db.current.datomSet.image Datom.tx).finite_toSet.subset ?_
    rintro tx ⟨-, d, hd, rfl⟩
    exact Finset.mem_coe.mpr (Finset.mem_image_of_mem Datom.tx hd)
  obtain ⟨tx, htx, hmax⟩ := hfinite.exists_maximal hnonempty
  have hgreatest : IsGreatest db.nodeTxIds tx := by
    refine ⟨htx, fun other hother => ?_⟩
    rcases le_total other tx with hle | hge
    · exact hle
    · exact hmax hother hge
  rw [(hcomplete tx).mpr hgreatest] at hnone
  cases hnone

/-- The opened store holds no datom of the clock's node. -/
def OpensForeign (db : Database) : Prop :=
  ∀ d ∈ db.current.datomSet, d.tx.node ≠ db.clock.node

/-- A call that is not a batch of transactions. -/
def NoBatch (call : Call) : Prop :=
  ∀ transactions, call = .batchTransact transactions → transactions = []

/-- What a lifetime keeps of the frontier: it is complete, and the clock has reached all
identifiers of its node. -/
structure FrontierKept (db : Database) : Prop where
  complete : db.FrontierComplete
  reached : ∀ tx ∈ db.nodeTxIds, db.clock.Covers tx

/-- A database built over a store whose datoms are foreign keeps its frontier. -/
theorem frontierKept_build {store : Store} {attached : Option Log}
    (h : (build store attached).OpensForeign) : (build store attached).FrontierKept := by
  have hnone (tx : TxId) (htx : tx ∈ (build store attached).nodeTxIds) : False := by
    obtain ⟨hnode, d, hd, rfl⟩ := htx
    exact h d hd hnode
  refine ⟨fun tx => ⟨fun hlookup => ?_, fun hgreatest => (hnone tx hgreatest.1).elim⟩,
    fun tx htx => (hnone tx htx).elim⟩
  have hempty : (∅ : Frontier)[(build store attached).clock.node]? = none := rfl
  rw [show (build store attached).frontier = ∅ from rfl, hempty] at hlookup
  cases hlookup

/-- A database that differs in its clock only, and there by ticks, keeps its frontier. -/
theorem FrontierKept.of_ticks {db db' : Database} (h : db.FrontierKept) {env : Env}
    {txIds : List TxId} (hticks : Ticks env 0 db.clock txIds db'.clock)
    (hcurrent : db'.current = db.current) (hfrontier : db'.frontier = db.frontier) :
    db'.FrontierKept := by
  have hnode := hticks.node.1
  have hsame : db'.nodeTxIds = db.nodeTxIds := by
    rw [nodeTxIds, nodeTxIds, hnode, hcurrent]
  refine ⟨fun tx => ?_, fun tx htx => ?_⟩
  · rw [hfrontier, hnode, hsame]
    exact h.complete tx
  · rw [hsame] at htx
    exact hticks.covers (h.reached tx htx)

variable [Bincode]

/-- A single transaction keeps the invariant. -/
theorem FrontierKept.published {db : Database} (h : db.FrontierKept) {call : Call} {env : Env}
    {receipts : List TxReceipt} {txId : TxId} (hpublished : Published db call env receipts [txId])
    (hadvance : (db.step call env).2.frontier = db.frontier.advance txId.node txId) :
    (db.step call env).2.FrontierKept := by
  obtain ⟨hnode, hissued⟩ := hpublished.ticks.node
  have htxNode : txId.node = db.clock.node := hissued txId List.mem_cons_self
  -- the identifiers of the node are the earlier ones and the new one
  have hset (tx : TxId) : tx ∈ (db.step call env).2.nodeTxIds ↔ tx = txId ∨ tx ∈ db.nodeTxIds := by
    rw [nodeTxIds, Set.mem_ofPred_eq, hnode]
    constructor
    · rintro ⟨hsame, d, hd, rfl⟩
      rcases hpublished.commits.mem_datomSet.mp hd with hold | ⟨receipt, hreceipt, hnew⟩
      · exact .inr ⟨hsame, d, hold, rfl⟩
      · exact .inl (List.mem_singleton.mp
          (hpublished.exists_tx.mp ⟨receipt, hreceipt, d, hnew, rfl⟩))
    · rintro (rfl | ⟨hsame, d, hd, rfl⟩)
      · obtain ⟨receipt, hreceipt, d, hd, htx⟩ := hpublished.exists_tx.mpr List.mem_cons_self
        exact ⟨htxNode, d, hpublished.commits.mem_datomSet.mpr (.inr ⟨receipt, hreceipt, hd⟩), htx⟩
      · exact ⟨hsame, d, hpublished.commits.mem_datomSet.mpr (.inl hd), rfl⟩
  have hbelow (tx : TxId) (htx : tx ∈ db.nodeTxIds) : tx < txId :=
    hpublished.ticks.lt (h.reached tx htx) txId List.mem_cons_self
  have hgreatest : IsGreatest (db.step call env).2.nodeTxIds txId := by
    refine ⟨(hset txId).mpr (.inl rfl), fun tx htx => ?_⟩
    rcases (hset tx).mp htx with rfl | hold
    · exact le_refl _
    · exact (hbelow tx hold).le
  refine ⟨fun tx => ?_, fun tx htx => ?_⟩
  · have hlookup : (db.step call env).2.frontier[db.clock.node]? = some txId := by
      rw [hadvance, htxNode]
      refine Frontier.getElem?_advance fun known hknown => ?_
      exact hbelow known ((h.complete known).mp hknown).1
    rw [hnode, hlookup]
    constructor
    · intro hsame
      cases hsame
      exact hgreatest
    · intro hother
      rw [hgreatest.unique hother]
  · rcases (hset tx).mp htx with rfl | hold
    · exact hpublished.ticks.issued.1 tx List.mem_cons_self
    · exact hpublished.ticks.covers (h.reached tx hold)

/-- A call that is not a batch keeps the invariant. -/
theorem FrontierKept.step {db : Database} (h : db.FrontierKept) {call : Call} (env : Env)
    (hcall : NoBatch call) : (db.step call env).2.FrontierKept := by
  cases hresult : (db.step call env).1 with
  | error e =>
      obtain ⟨txIds, hticks, -⟩ := stage_ticks db env call
      rw [← clock_step] at hticks
      obtain ⟨hcurrent, hfrontier⟩ := step_error hresult
      exact h.of_ticks hticks hcurrent hfrontier
  | ok receipts =>
      obtain ⟨txIds, hpublished⟩ := step_published hresult
      have hlength := hpublished.length
      have hfrontier := hpublished.frontier
      cases call with
      | transact transaction =>
          obtain ⟨txId, rfl⟩ := List.length_eq_one_iff.mp hlength
          exact h.published hpublished hfrontier
      | transactSigned transaction key =>
          obtain ⟨txId, rfl⟩ := List.length_eq_one_iff.mp hlength
          exact h.published hpublished hfrontier
      | batchTransact transactions =>
          have hempty : (Call.batchTransact transactions).transactions = [] :=
            hcall transactions rfl
          rw [step_of_transactions_eq_nil db env hempty]
          exact h

/-- In lives without batches the frontier is kept. -/
theorem frontierKept_of_lives {db : Database}
    (h : Lives OpensForeign (fun _ call _ => NoBatch call) db) : db.FrontierKept := by
  induction h with
  | opened hopening hforeign =>
      obtain ⟨store, attached, rfl⟩ := Opening.database_ok hopening
      exact frontierKept_build hforeign
  | stepped _ hcall ih => exact ih.step _ hcall

omit [Bincode] in
/-- The metadata name the last known identifier of a node as a predecessor. -/
theorem predecessor_mem_transactMetadata {node : NodeId} (origin : NodeId) (ctx : TransactContext)
    {known : Frontier} (hknown : ctx.frontier = some known) {tx : TxId}
    (h : known[node]? = some tx) :
    ∃ d ∈ transactMetadata origin ctx, d.attr = "tx/predecessor" ∧
      d.value = .ref (txEntityFromTxid tx) := by
  refine ⟨⟨txEntityFromTxid ctx.txId, "tx/predecessor", .ref (txEntityFromTxid tx), ctx.txId,
    .assert⟩, ?_, rfl, rfl⟩
  have hentry : (node, tx) ∈ known.toList := OrdMap.mem_toList.mpr h
  simp only [transactMetadata, createFederationMetadata, hknown, List.mem_append, List.mem_map]
  exact .inr (.inl (.inl ⟨(node, tx), hentry, rfl⟩))

/-- A single transaction names every entry of the frontier as a predecessor. -/
theorem step_predecessor {db : Database} {call : Call} {env : Env} (hcall : NoBatch call)
    {receipts : List TxReceipt} (hok : (db.step call env).1 = .ok receipts) {node : NodeId}
    {tx : TxId} (h : db.frontier[node]? = some tx) :
    ∀ receipt ∈ receipts, ∃ d ∈ receipt.datoms, d.attr = "tx/predecessor" ∧
      d.value = .ref (txEntityFromTxid tx) := by
  intro receipt hreceipt
  have hstage {transaction : Transaction} {sign : TxId → Option (TxSignature × TxSigner)}
      {staged : Staged} (hstaged : (db.stageTransact env transaction sign).1 = .ok staged)
      (hmem : receipt ∈ staged.receipts) : ∃ d ∈ receipt.datoms, d.attr = "tx/predecessor" ∧
        d.value = .ref (txEntityFromTxid tx) := by
    obtain ⟨txId, only, hreceipts, -, hdatoms, -⟩ := stageTransact_receipt hstaged
    rw [hreceipts] at hmem
    obtain rfl := List.mem_singleton.mp hmem
    obtain ⟨d, hd, hattr, hvalue⟩ := predecessor_mem_transactMetadata
      transaction.node ⟨txId, some db.frontier, sign txId, .observed⟩ rfl h
    exact ⟨d, hdatoms ▸ List.mem_append_right _ hd, hattr, hvalue⟩
  rcases step_cases db call env with ⟨e, attached, hstep⟩ | ⟨staged, attached, hstaged, hstep⟩
  · rw [hstep] at hok
    cases hok
  · rw [hstep] at hok
    cases hok
    cases call with
    | transact transaction => exact hstage hstaged hreceipt
    | transactSigned transaction key => exact hstage hstaged hreceipt
    | batchTransact transactions =>
        obtain rfl := hcall transactions rfl
        cases hstaged
        exact absurd hreceipt List.not_mem_nil

/-- In every life of single transactions over stores that are foreign to the clock's node when
they are opened, the frontier maps the node to its greatest identifier in the published store, and
the next transaction names that one as a predecessor. -/
theorem frontier_complete {db : Database}
    (hlives : Lives OpensForeign (fun _ call _ => NoBatch call) db) :
    db.FrontierComplete ∧
      ∀ call env receipts tx, NoBatch call → (db.step call env).1 = .ok receipts →
        IsGreatest db.nodeTxIds tx → ∀ receipt ∈ receipts, ∃ d ∈ receipt.datoms,
          d.attr = "tx/predecessor" ∧ d.value = .ref (txEntityFromTxid tx) := by
  have hkept := frontierKept_of_lives hlives
  refine ⟨hkept.complete, fun call env receipts tx hcall hok hgreatest => ?_⟩
  exact step_predecessor hcall hok ((hkept.complete tx).mpr hgreatest)

end FrontierComplete

end Database

namespace Sample

/-- An environment with one clock reading and a disk that works. -/
def working (now : UInt64) : Env :=
  envAt now .complete (.ok ())

/-- A database after one transaction at the given time. -/
def written (call : Call) (now : UInt64) : Database :=
  (Database.genesisWithWal.step call (working now)).2

end Sample

open Sample

namespace Database

/-- The first call of a genesis database finds no identifier in the store. -/
theorem clockAhead_genesisWithWal (call : Call) (env : Env) :
    genesisWithWal.ClockAhead call env := by
  intro _ _ d hd
  have hnone : genesisWithWal.current.datomSet = ∅ := Store.datomSet_genesis
  rw [hnone] at hd
  exact absurd hd (Finset.notMem_empty d)

/-- An outcome with a number of receipts is a success. -/
theorem exists_ok_of_length {result : Except FerraError (List TxReceipt)} {count : Nat}
    (h : result.toOption.map List.length = some count) :
    ∃ receipts, result = .ok receipts ∧ receipts.length = count := by
  cases result with
  | error e => cases h
  | ok receipts => exact ⟨receipts, rfl, Option.some.inj h⟩

/-- The sample database has the zero node. -/
theorem node_written (call : Call) (now : UInt64) :
    (written call now).clock.node = NodeId.zero := by
  obtain ⟨txIds, hticks, -⟩ := stage_ticks genesisWithWal (working now) call
  rw [← clock_step] at hticks
  exact hticks.node.1

/-- The document transaction commits on the genesis database. -/
theorem length_document :
    (genesisWithWal.step (.transact document) (working 10)).1.toOption.map List.length =
      some 1 := by
  decide +kernel

/-- A call with transactions on a database with a fresh clock publishes a datom with its wall
clock's time. -/
theorem exists_published {db : Database} (hfresh : db.clock = HybridClock.new NodeId.zero)
    {call : Call} (hne : call.transactions ≠ []) {now : UInt64} (hnow : 0 < now)
    {receipts : List TxReceipt} (h : (db.step call (working now)).1 = .ok receipts) :
    ∃ receipt ∈ receipts, ∃ d ∈ receipt.datoms,
      d ∈ (db.step call (working now)).2.current.datomSet ∧ d.tx = ⟨now, 0, NodeId.zero⟩ := by
  obtain ⟨txIds, hpublished⟩ := step_published h
  have hlt : db.clock.physical < (working now).now 0 0 := by
    rw [hfresh]
    exact hnow
  have htick : (db.clock.tick ((working now).now 0)).1 = .ok ⟨now, 0, NodeId.zero⟩ := by
    rw [HybridClock.tick_of_lt hlt, hfresh]
    rfl
  obtain ⟨receipt, hreceipt, d, hd, htx⟩ := hpublished.first hne htick
  exact ⟨receipt, hreceipt, d, hd,
    hpublished.commits.mem_datomSet.mpr (.inr ⟨receipt, hreceipt, hd⟩), htx⟩

/-- Within a lifetime the identifiers increase although the wall clock goes back. -/
theorem txIds_increase_regressing :
    Lives (fun _ => True) ClockAhead (written (.transact document) 10) ∧
      ∃ receipts, ((written (.transact document) 10).step (.transact document) (working 5)).1 =
          .ok receipts ∧ receipts.length = 1 ∧
        ∀ receipt ∈ receipts, ∀ d ∈ receipt.datoms,
          ∀ old ∈ (written (.transact document) 10).current.datomSet, old.tx < d.tx := by
  have hlives : Lives (fun _ => True) ClockAhead (written (.transact document) 10) :=
    .stepped (.opened (show Opening.genesisWithWal.database = .ok genesisWithWal from rfl) trivial)
      (clockAhead_genesisWithWal _ _)
  have hahead : (written (.transact document) 10).ClockAhead (.transact document) (working 5) := by
    intro hfresh
    have hphysical : (written (.transact document) 10).clock.physical = 10 := by
      decide +kernel
    rw [hfresh] at hphysical
    exact absurd hphysical (by decide)
  have hlength : ((written (.transact document) 10).step (.transact document)
      (working 5)).1.toOption.map List.length = some 1 := by
    decide +kernel
  obtain ⟨receipts, hok, hone⟩ := exists_ok_of_length hlength
  exact ⟨hlives, receipts, hok, hone, txIds_increase hlives hahead hok⟩

/-- A store opened again with an earlier wall clock gets smaller identifiers than it holds. -/
theorem exists_smaller {db : Database} (hfresh : db.clock = HybridClock.new NodeId.zero)
    {call : Call} (hne : call.transactions ≠ []) {early late : UInt64} (hearly : 0 < early)
    (hlt : early < late) {before receipts : List TxReceipt}
    (hbefore : (db.step call (working late)).1 = .ok before) {store : Store}
    (hstore : store = (db.step call (working late)).2.current)
    (hnode : store.genesisNode = NodeId.zero)
    (hok : ((fromStore store).step call (working early)).1 = .ok receipts) :
    ∃ receipt ∈ receipts, ∃ d ∈ receipt.datoms, ∃ old ∈ (fromStore store).current.datomSet,
      d.tx < old.tx := by
  obtain ⟨-, -, old, -, hold, holdTx⟩ := exists_published hfresh hne (hearly.trans hlt) hbefore
  have hreopened : (fromStore store).clock = HybridClock.new NodeId.zero := by
    rw [← hnode]
    rfl
  obtain ⟨receipt, hreceipt, d, hd, -, hdTx⟩ := exists_published hreopened hne hearly hok
  refine ⟨receipt, hreceipt, d, hd, old, ?_, ?_⟩
  · show old ∈ store.datomSet
    rw [hstore]
    exact hold
  · rw [hdTx, holdTx]
    exact TxId.lt_iff.mpr (.inl hlt)

/-- A store that was written and is opened again with an earlier wall clock gets a smaller
identifier than those it holds. -/
theorem reopened_clock_regresses :
    ∃ receipts, ((fromStore (written (.transact document) 10).current).step (.transact document)
        (working 5)).1 = .ok receipts ∧
      ∃ receipt ∈ receipts, ∃ d ∈ receipt.datoms,
        ∃ old ∈ (fromStore (written (.transact document) 10).current).current.datomSet,
          d.tx < old.tx := by
  have hsecond : ((fromStore (written (.transact document) 10).current).step (.transact document)
      (working 5)).1.toOption.map List.length = some 1 := by
    decide +kernel
  have hnode : (written (.transact document) 10).current.genesisNode = NodeId.zero := by
    decide +kernel
  have hne : (Call.transact document).transactions ≠ [] := List.cons_ne_nil _ _
  obtain ⟨before, hbefore, -⟩ := exists_ok_of_length length_document
  obtain ⟨receipts, hok, -⟩ := exists_ok_of_length hsecond
  have hearly : (0 : UInt64) < 5 := by decide
  have hlt : (5 : UInt64) < 10 := by decide
  have hstore : (written (.transact document) 10).current =
      (genesisWithWal.step (.transact document) (working 10)).2.current := by
    rw [written]
  exact ⟨receipts, hok, exists_smaller rfl hne hearly hlt hbefore hstore hnode hok⟩

/-- A written store has an identifier of the clock's node. -/
theorem nonempty_nodeTxIds_written {call : Call} (hne : call.transactions ≠ []) {now : UInt64}
    (hnow : 0 < now) {count : Nat}
    (hlength : (genesisWithWal.step call (working now)).1.toOption.map List.length = some count) :
    (written call now).nodeTxIds.Nonempty := by
  obtain ⟨receipts, hok, -⟩ := exists_ok_of_length hlength
  obtain ⟨-, -, d, -, hd, htx⟩ := exists_published rfl hne hnow hok
  refine ⟨d.tx, ?_, d, hd, rfl⟩
  rw [htx, node_written]

/-- After one transaction the frontier maps the node to it. -/
theorem frontier_complete_document :
    Lives OpensForeign (fun _ call _ => NoBatch call) (written (.transact document) 10) ∧
      (written (.transact document) 10).FrontierComplete ∧
      (written (.transact document) 10).nodeTxIds.Nonempty := by
  have hforeign : genesisWithWal.OpensForeign := by
    intro d hd
    have hnone : genesisWithWal.current.datomSet = ∅ := Store.datomSet_genesis
    rw [hnone] at hd
    exact absurd hd (Finset.notMem_empty d)
  have hsingle : NoBatch (.transact document) := fun transactions h => nomatch h
  have hlives :
      Lives OpensForeign (fun _ call _ => NoBatch call) (written (.transact document) 10) :=
    .stepped (.opened (show Opening.genesisWithWal.database = .ok genesisWithWal from rfl) hforeign)
      hsingle
  have hne : (Call.transact document).transactions ≠ [] := List.cons_ne_nil _ _
  exact ⟨hlives, (frontier_complete hlives).1,
    nonempty_nodeTxIds_written hne (by decide) length_document⟩

/-- A batch leaves the frontier without an entry for the node whose transactions it published. -/
theorem batch_leaves_frontier : ¬(written (.batchTransact [document]) 10).FrontierComplete := by
  have hlength : (genesisWithWal.step (.batchTransact [document]) (working 10)).1.toOption.map
      List.length = some 1 := by
    decide +kernel
  have hnone : (written (.batchTransact [document]) 10).frontier[NodeId.zero]? = none := by
    decide +kernel
  have hne : (Call.batchTransact [document]).transactions ≠ [] := List.cons_ne_nil _ _
  rw [← node_written (.batchTransact [document]) 10] at hnone
  exact not_frontierComplete (nonempty_nodeTxIds_written hne (by decide) hlength) hnone

end Database

end Ferratomic
