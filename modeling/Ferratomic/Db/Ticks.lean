import Ferratomic.Db.Basic

/-!
# The identifiers of a call

A call ticks the clock once for each of its transactions, before anything else can fail, and
stamps the datoms of a transaction with the identifier that its tick issued. `Ticks` is the
sequence of ticks. The main theorems say how the staging of a call follows it (`stage_ticks`),
what a call can do with what it staged (`step_cases`) and what a successful call publishes
(`step_published`).
-/

namespace Ferratomic

open Lib

/-- The ticks of one call: each issues an identifier and leaves the clock for the next. -/
inductive Ticks (env : Env) : Nat → HybridClock → List TxId → HybridClock → Prop
  | nil (index : Nat) (clock : HybridClock) : Ticks env index clock [] clock
  | cons {index : Nat} {clock next last : HybridClock} {txId : TxId} {txIds : List TxId} :
      clock.tick (env.now index) = (.ok txId, next) → Ticks env (index + 1) next txIds last →
      Ticks env index clock (txId :: txIds) last

namespace Ticks

variable {env : Env} {index : Nat} {clock last : HybridClock} {txIds : List TxId}

/-- No tick leaves the clock as it is. -/
theorem eq_of_nil (h : Ticks env index clock [] last) : last = clock := by
  cases h
  rfl

/-- What a clock has reached stays so over the ticks. -/
theorem covers (h : Ticks env index clock txIds last) {tx : TxId} (hcovers : clock.Covers tx) :
    last.Covers tx := by
  induction h with
  | nil => exact hcovers
  | @cons index _ _ _ _ _ htick _ ih =>
      have hnext := hcovers.tick (env.now index)
      rw [htick] at hnext
      exact ih hnext

/-- The ticks issue identifiers of the clock's node, and the node stays. -/
theorem node (h : Ticks env index clock txIds last) :
    last.node = clock.node ∧ ∀ txId ∈ txIds, txId.node = clock.node := by
  induction h with
  | nil => exact ⟨rfl, fun txId h => absurd h List.not_mem_nil⟩
  | cons htick _ ih =>
      obtain ⟨hclock, hnode, -⟩ := HybridClock.tick_ok (congrArg Prod.fst htick)
      rw [htick] at hclock
      -- the clock after the tick shows the identifier and keeps its owner
      subst hclock
      obtain ⟨hlast, hrest⟩ := ih
      exact ⟨hlast, List.forall_mem_cons.mpr ⟨hnode, hrest⟩⟩

/-- What the clock had reached is below all that the ticks issue. -/
theorem lt (h : Ticks env index clock txIds last) {tx : TxId} (hcovers : clock.Covers tx) :
    ∀ txId ∈ txIds, tx < txId := by
  induction h with
  | nil => exact fun txId h => absurd h List.not_mem_nil
  | @cons index _ _ _ _ _ htick _ ih =>
      have hnext := hcovers.tick (env.now index)
      rw [htick] at hnext
      exact List.forall_mem_cons.mpr ⟨hcovers.lt_tick (congrArg Prod.fst htick), ih hnext⟩

/-- The clock afterwards has reached all that the ticks issued, and they issued it in order. -/
theorem issued (h : Ticks env index clock txIds last) :
    (∀ txId ∈ txIds, last.Covers txId) ∧ txIds.Pairwise (· < ·) := by
  induction h with
  | nil => exact ⟨fun txId h => absurd h List.not_mem_nil, .nil⟩
  | cons htick hrest ih =>
      have hreached := HybridClock.covers_tick (congrArg Prod.fst htick)
      rw [htick] at hreached
      obtain ⟨hcovered, hpairwise⟩ := ih
      exact ⟨List.forall_mem_cons.mpr ⟨hrest.covers hreached, hcovered⟩,
        .cons (hrest.lt hreached) hpairwise⟩

end Ticks

section Stamping

/-- All datoms of a receipt carry one identifier, and there are some. -/
def StampedWith (txId : TxId) (receipt : TxReceipt) : Prop :=
  receipt.datoms ≠ [] ∧ ∀ d ∈ receipt.datoms, d.tx = txId

/-- Stamped datoms have the identifier they are stamped with. -/
theorem tx_stampDatoms {items : List Datom} {txId : TxId} {d : Datom}
    (h : d ∈ stampDatoms items txId) : d.tx = txId := by
  obtain ⟨original, -, rfl⟩ := List.mem_map.mp h
  rfl

variable [Blake3]

/-- Transaction metadata carries the identifier of its transaction. -/
theorem tx_transactMetadata {node : NodeId} {ctx : TransactContext} {d : Datom}
    (h : d ∈ transactMetadata node ctx) : d.tx = ctx.txId := by
  simp only [transactMetadata, createTxMetadata, createFederationMetadata, List.mem_append,
    List.mem_cons, List.not_mem_nil, or_false] at h
  rcases h with (rfl | rfl) | (h | rfl) | h
  · rfl
  · rfl
  · cases hfrontier : ctx.frontier with
    | none => simp [hfrontier] at h
    | some known =>
        simp only [hfrontier, List.mem_map] at h
        obtain ⟨entry, -, rfl⟩ := h
        rfl
  · rfl
  · cases hsigning : ctx.signing with
    | none => simp [hsigning] at h
    | some signing =>
        simp only [hsigning, List.mem_cons, List.not_mem_nil, or_false] at h
        rcases h with rfl | rfl <;> rfl

/-- A transaction stamped with an identifier, followed by its metadata. -/
theorem stampedWith_of_datoms {items : List Datom} {node : NodeId} (ctx : TransactContext)
    {receipt : TxReceipt}
    (h : receipt.datoms = stampDatoms items ctx.txId ++ transactMetadata node ctx) :
    StampedWith ctx.txId receipt := by
  rw [StampedWith, h]
  refine ⟨by simp [transactMetadata, createTxMetadata], fun d hd => ?_⟩
  rcases List.mem_append.mp hd with hstamped | hmetadata
  · exact tx_stampDatoms hstamped
  · exact tx_transactMetadata hmetadata

end Stamping

/-- The frontier that a call leaves: a single transaction advances it, a batch does not. -/
def Call.advances (frontier : Frontier) : Call → List TxId → Frontier
  | transact _, txIds => txIds.foldl (fun known txId => known.advance txId.node txId) frontier
  | transactSigned _ _, txIds =>
      txIds.foldl (fun known txId => known.advance txId.node txId) frontier
  | batchTransact _, _ => frontier

/-- Advancing the frontier to a greater identifier of a node shows it. -/
theorem Frontier.getElem?_advance {frontier : Frontier} {node : NodeId} {txId : TxId}
    (h : ∀ known, frontier[node]? = some known → known < txId) :
    (frontier.advance node txId)[node]? = some txId := by
  have hinsert : (frontier.insert node txId)[node]? = some txId := by
    rw [OrdMap.getElem?_insert_eq, if_pos rfl]
  unfold Frontier.advance
  split
  case h_1 => exact hinsert
  case h_2 known hknown =>
      rw [if_pos (h known hknown)]
      exact hinsert

namespace Database

variable [Blake3]

/-- The identifiers of a staged call: the ticks of the clock, one for each receipt. -/
structure StagedTicks (db : Database) (env : Env) (call : Call) (staged : Staged)
    (clock : HybridClock) (txIds : List TxId) : Prop where
  ticks : Ticks env 0 db.clock txIds clock
  length : txIds.length = call.transactions.length
  stamped : List.Forall₂ StampedWith txIds staged.receipts
  frontier : staged.frontier = call.advances db.frontier txIds

/-- The receipt of a staged transaction: its datoms with the identifier of the tick, and the
metadata. -/
theorem stageTransact_receipt {db : Database} {env : Env} {transaction : Transaction}
    {sign : TxId → Option (TxSignature × TxSigner)} {staged : Staged}
    (h : (db.stageTransact env transaction sign).1 = .ok staged) :
    ∃ txId receipt, staged.receipts = [receipt] ∧
      db.clock.tick (env.now 0) = (.ok txId, (db.stageTransact env transaction sign).2) ∧
      receipt.datoms = stampDatoms transaction.datoms txId ++
        transactMetadata transaction.node ⟨txId, some db.frontier, sign txId, .observed⟩ ∧
      staged.frontier = db.frontier.advance txId.node txId := by
  unfold stageTransact at h ⊢
  rcases htick : db.clock.tick (env.now 0) with ⟨e | txId, clock⟩
  · rw [htick] at h
    cases h
  · rw [htick] at h
    simp only at h ⊢
    rcases htransact : Store.transact (env.order 0) db.current transaction
      ⟨txId, some db.frontier, sign txId, .observed⟩ with ⟨e | receipt, store⟩
    · rw [htransact] at h
      cases h
    · rw [htransact] at h
      cases h
      exact ⟨txId, receipt, rfl, rfl, (Store.transact_ok (congrArg Prod.fst htransact)).1, rfl⟩

/-- The clock of a staged transaction ticks once or fails to tick. -/
theorem stageTransact_ticks (db : Database) (env : Env) (transaction : Transaction)
    (sign : TxId → Option (TxSignature × TxSigner)) :
    ∃ txIds, Ticks env 0 db.clock txIds (db.stageTransact env transaction sign).2 := by
  unfold stageTransact
  rcases htick : db.clock.tick (env.now 0) with ⟨e | txId, clock⟩
  · have hclock := HybridClock.tick_error (congrArg Prod.fst htick)
    rw [htick] at hclock
    subst hclock
    exact ⟨[], .nil 0 _⟩
  · refine ⟨[txId], ?_⟩
    simp only
    split
    case h_1 => exact .cons htick (.nil 1 clock)
    case h_2 => exact .cons htick (.nil 1 clock)

/-- A single call ticks once and stamps its receipt with the identifier. -/
theorem stageTransact_staged (db : Database) (env : Env) (transaction : Transaction)
    (sign : TxId → Option (TxSignature × TxSigner)) :
    ∃ txIds, Ticks env 0 db.clock txIds (db.stageTransact env transaction sign).2 ∧
      ∀ staged, (db.stageTransact env transaction sign).1 = .ok staged →
        ∃ txId, txIds = [txId] ∧ List.Forall₂ StampedWith txIds staged.receipts ∧
          staged.frontier = db.frontier.advance txId.node txId := by
  cases hstaged : (db.stageTransact env transaction sign).1 with
  | error e =>
      obtain ⟨txIds, hticks⟩ := stageTransact_ticks db env transaction sign
      exact ⟨txIds, hticks, fun staged h => nomatch h⟩
  | ok staged =>
      obtain ⟨txId, receipt, hreceipts, htick, hdatoms, hfrontier⟩ := stageTransact_receipt hstaged
      refine ⟨[txId], .cons htick (.nil 1 _), fun other hother => ?_⟩
      cases hother
      rw [hreceipts]
      have hstamped : StampedWith txId receipt :=
        stampedWith_of_datoms ⟨txId, some db.frontier, sign txId, .observed⟩ hdatoms
      exact ⟨txId, rfl, .cons hstamped .nil, hfrontier⟩

omit [Blake3] in
/-- The ticks of a batch, with the identifiers it pairs with the transactions. -/
theorem tickBatches_ticks (env : Env) (clock : HybridClock) (index : Nat)
    (transactions : List Transaction) :
    ∃ txIds, Ticks env index clock txIds (tickBatches clock env index transactions).2 ∧
      ∀ batches, (tickBatches clock env index transactions).1 = .ok batches →
        batches.map Prod.snd = txIds ∧ txIds.length = transactions.length := by
  fun_induction tickBatches clock env index transactions with
  | case1 clock index =>
      refine ⟨[], .nil index clock, fun batches h => ?_⟩
      cases h
      exact ⟨rfl, rfl⟩
  | case2 clock index transaction rest e clock' htick =>
      have hclock := HybridClock.tick_error (congrArg Prod.fst htick)
      rw [htick] at hclock
      subst hclock
      exact ⟨[], .nil index _, fun batches h => by cases h⟩
  | case3 clock index transaction rest txId clock' htick e clock'' hrest ih =>
      obtain ⟨txIds, hticks, -⟩ := ih
      rw [hrest] at hticks
      exact ⟨txId :: txIds, .cons htick hticks, fun batches h => by cases h⟩
  | case4 clock index transaction rest txId clock' htick batches clock'' hrest ih =>
      obtain ⟨txIds, hticks, hbatches⟩ := ih
      rw [hrest] at hticks hbatches
      refine ⟨txId :: txIds, .cons htick hticks, fun batches' h => ?_⟩
      cases h
      obtain ⟨hsnd, hlength⟩ := hbatches batches rfl
      rw [List.map_cons, hsnd, List.length_cons, List.length_cons, hlength]
      exact ⟨rfl, rfl⟩

/-- Receipts of the stamped batches are stamped with the batches' identifiers. -/
theorem forall₂_stampedWith {batches : List (List Datom × TxId)} {receipts : List TxReceipt}
    (h : receipts.map TxReceipt.datoms =
      batches.map fun batch => stampAndAppendMetadata batch.1 batch.2) :
    List.Forall₂ StampedWith (batches.map Prod.snd) receipts := by
  induction batches generalizing receipts with
  | nil =>
      rw [List.map_nil, List.map_eq_nil_iff] at h
      subst h
      exact .nil
  | cons batch batches ih =>
      obtain ⟨receipt, rest, rfl, hfirst, hrest⟩ := List.map_eq_cons_iff.mp h
      exact .cons (stampedWith_of_datoms (batchContext batch.2) hfirst) (ih hrest)

/-- A batch ticks once for each transaction and stamps their receipts in turn. -/
theorem stageBatch_ticks (db : Database) (env : Env) (transactions : List Transaction) :
    ∃ txIds, Ticks env 0 db.clock txIds (db.stageBatch env transactions).2 ∧
      ∀ staged, (db.stageBatch env transactions).1 = .ok staged →
        txIds.length = transactions.length ∧ List.Forall₂ StampedWith txIds staged.receipts ∧
          staged.frontier = db.frontier := by
  unfold stageBatch
  split
  case isTrue hempty =>
      refine ⟨[], .nil 0 db.clock, fun staged h => ?_⟩
      cases h
      rw [List.isEmpty_iff.mp hempty]
      exact ⟨rfl, .nil, rfl⟩
  case isFalse =>
      obtain ⟨txIds, hticks, hbatches⟩ := tickBatches_ticks env db.clock 0 transactions
      rcases htick : tickBatches db.clock env 0 transactions with ⟨e | batches, clock⟩
      · rw [htick] at hticks
        exact ⟨txIds, hticks, fun staged h => nomatch h⟩
      · rw [htick] at hticks hbatches
        simp only
        rcases hsplice : Store.batchSpliceTransact env.order db.current batches with
          ⟨e | receipts, store⟩
        · exact ⟨txIds, hticks, fun staged h => nomatch h⟩
        · refine ⟨txIds, hticks, fun staged h => ?_⟩
          cases h
          obtain ⟨hdatoms, -⟩ := Store.batchSpliceTransact_ok (congrArg Prod.fst hsplice)
          obtain ⟨hsnd, hlength⟩ := hbatches batches rfl
          refine ⟨hlength, ?_, rfl⟩
          rw [← hsnd]
          exact forall₂_stampedWith hdatoms

/-- The staging of a call ticks the clock, and stamps its receipts with what the ticks issued. -/
theorem stage_ticks (db : Database) (env : Env) (call : Call) :
    ∃ txIds, Ticks env 0 db.clock txIds (db.stage env call).2 ∧
      ∀ staged, (db.stage env call).1 = .ok staged →
        db.StagedTicks env call staged (db.stage env call).2 txIds := by
  cases call with
  | transact transaction =>
      obtain ⟨txIds, hticks, hok⟩ := stageTransact_staged db env transaction fun _ => none
      refine ⟨txIds, hticks, fun staged h => ?_⟩
      obtain ⟨txId, rfl, hstamped, hfrontier⟩ := hok staged h
      exact ⟨hticks, rfl, hstamped, hfrontier⟩
  | transactSigned transaction key =>
      obtain ⟨txIds, hticks, hok⟩ := stageTransact_staged db env transaction
        (db.signFor transaction key)
      refine ⟨txIds, hticks, fun staged h => ?_⟩
      obtain ⟨txId, rfl, hstamped, hfrontier⟩ := hok staged h
      exact ⟨hticks, rfl, hstamped, hfrontier⟩
  | batchTransact transactions =>
      obtain ⟨txIds, hticks, hok⟩ := stageBatch_ticks db env transactions
      refine ⟨txIds, hticks, fun staged h => ?_⟩
      obtain ⟨hlength, hstamped, hfrontier⟩ := hok staged h
      exact ⟨hticks, hlength, hstamped, hfrontier⟩

variable [Bincode]

/-- Writing the log changes the log only. -/
theorem writeWal_same (db : Database) (write : WriteOutcome) (sync : Except String Unit)
    (receipt : TxReceipt) :
    ∃ result attached, db.writeWal write sync receipt = (result, { db with wal := attached }) := by
  cases hwal : db.wal with
  | none =>
      refine ⟨.ok (), none, ?_⟩
      unfold writeWal
      rw [hwal]
      show (Except.ok (), db) = (Except.ok (), { db with wal := none })
      rw [← hwal]
  | some wal =>
      obtain ⟨result, wal', hwrite, -⟩ := writeWal_cases hwal write sync receipt
      exact ⟨result, some wal', hwrite⟩

/-- Writing the log changes the attached log only. -/
theorem writeWalAll_same (db : Database) (env : Env) (index : Nat) (receipts : List TxReceipt) :
    ∃ result attached,
      db.writeWalAll env index receipts = (result, { db with wal := attached }) := by
  induction receipts generalizing db index with
  | nil => exact ⟨.ok (), db.wal, rfl⟩
  | cons receipt rest ih =>
      obtain ⟨result, attached, hwrite⟩ :=
        writeWal_same db (env.write index) (env.sync index) receipt
      rw [writeWalAll, hwrite]
      cases result with
      | error e => exact ⟨.error e, attached, rfl⟩
      | ok _ => exact ih { db with wal := attached } (index + 1)

/-- A call either fails, and then only its clock and its log have moved, or publishes what it
staged. -/
theorem step_cases (db : Database) (call : Call) (env : Env) :
    (∃ e attached, db.step call env =
      (.error e, { db with wal := attached, clock := (db.stage env call).2 })) ∨
      ∃ staged attached, (db.stage env call).1 = .ok staged ∧ db.step call env =
        (.ok staged.receipts,
          ⟨staged.store, attached, (db.stage env call).2, staged.frontier⟩) := by
  rw [step_eq]
  rcases hstage : db.stage env call with ⟨e | staged, clock⟩
  · exact .inl ⟨e, db.wal, rfl⟩
  · obtain ⟨result, attached, hwrite⟩ :=
      writeWalAll_same { db with clock := clock } env 0 staged.receipts
    simp only [commitStaged, hwrite]
    cases result with
    | error e => exact .inl ⟨e, attached, rfl⟩
    | ok _ => exact .inr ⟨staged, attached, rfl, rfl⟩

/-- The clock after a call is the clock after its staging, whether the call succeeds or not. -/
theorem clock_step (db : Database) (call : Call) (env : Env) :
    (db.step call env).2.clock = (db.stage env call).2 := by
  rcases step_cases db call env with ⟨e, attached, h⟩ | ⟨staged, attached, -, h⟩
  · rw [h]
  · rw [h]

/-- A failed call leaves the published store and the frontier. -/
theorem step_error {db : Database} {call : Call} {env : Env} {e : FerraError}
    (h : (db.step call env).1 = .error e) :
    (db.step call env).2.current = db.current ∧ (db.step call env).2.frontier = db.frontier := by
  rcases step_cases db call env with ⟨e', attached, hstep⟩ | ⟨staged, attached, -, hstep⟩
  · rw [hstep]
    exact ⟨rfl, rfl⟩
  · rw [hstep] at h
    cases h

/-- What a successful call publishes: the store that follows from its receipts, which carry the
identifiers that the clock issued. -/
structure Published (db : Database) (call : Call) (env : Env) (receipts : List TxReceipt)
    (txIds : List TxId) : Prop where
  ticks : Ticks env 0 db.clock txIds (db.step call env).2.clock
  length : txIds.length = call.transactions.length
  stamped : List.Forall₂ StampedWith txIds receipts
  frontier : (db.step call env).2.frontier = call.advances db.frontier txIds
  commits : Commits db.current.obs receipts (db.step call env).2.current.obs
  reachable : Store.Reachable db.current → Store.Reachable (db.step call env).2.current

/-- A call that succeeds publishes its receipts under the identifiers it took. -/
theorem step_published {db : Database} {call : Call} {env : Env} {receipts : List TxReceipt}
    (h : (db.step call env).1 = .ok receipts) : ∃ txIds, Published db call env receipts txIds := by
  rcases step_cases db call env with ⟨e, attached, hstep⟩ | ⟨staged, attached, hstage, hstep⟩
  · rw [hstep] at h
    cases h
  · rw [hstep] at h
    cases h
    obtain ⟨txIds, -, hstaged⟩ := stage_ticks db env call
    obtain ⟨hticks, hlength, hstamped, hfrontier⟩ := hstaged staged hstage
    have hsame : db.stage env call = (.ok staged, (db.stage env call).2) := Prod.ext hstage rfl
    obtain ⟨-, hcommits, hreachable⟩ := stage_ok hsame
    refine ⟨txIds, ?_, hlength, hstamped, ?_, ?_, ?_⟩
    · rw [hstep]
      exact hticks
    · rw [hstep]
      exact hfrontier
    · rw [hstep]
      exact hcommits
    · rw [hstep]
      exact hreachable

/-- The datoms of the receipts carry the issued identifiers, and each identifier is carried. -/
theorem Published.exists_tx {db : Database} {call : Call} {env : Env}
    {receipts : List TxReceipt} {txIds : List TxId} (h : Published db call env receipts txIds)
    {tx : TxId} : (∃ receipt ∈ receipts, ∃ d ∈ receipt.datoms, d.tx = tx) ↔ tx ∈ txIds := by
  -- the induction is on the pairing of identifiers with receipts
  have hstamped := h.stamped
  clear h
  induction hstamped with
  | nil => simp
  | cons hfirst hrest ih =>
      obtain ⟨hne, hall⟩ := hfirst
      obtain ⟨d, hd⟩ := List.exists_mem_of_ne_nil _ hne
      constructor
      · rintro ⟨receipt, hreceipt, d', hd', htx⟩
        rcases List.mem_cons.mp hreceipt with rfl | hreceipt
        · rw [← htx, hall d' hd']
          exact List.mem_cons_self
        · exact List.mem_cons_of_mem _ (ih.mp ⟨receipt, hreceipt, d', hd', htx⟩)
      · intro htx
        rcases List.mem_cons.mp htx with rfl | htx
        · exact ⟨_, List.mem_cons_self, d, hd, hall d hd⟩
        · obtain ⟨receipt, hreceipt, d', hd', htx⟩ := ih.mpr htx
          exact ⟨receipt, List.mem_cons_of_mem _ hreceipt, d', hd', htx⟩

/-- A call with transactions publishes datoms with the identifier of its first tick. -/
theorem Published.first {db : Database} {call : Call} {env : Env} {receipts : List TxReceipt}
    {txIds : List TxId} (h : Published db call env receipts txIds) (hne : call.transactions ≠ [])
    {txId : TxId} (htick : (db.clock.tick (env.now 0)).1 = .ok txId) :
    ∃ receipt ∈ receipts, ∃ d ∈ receipt.datoms, d.tx = txId := by
  refine h.exists_tx.mpr ?_
  have hticks := h.ticks
  have hlength := h.length
  generalize (db.step call env).2.clock = last at hticks
  cases hticks with
  | nil => exact absurd (List.eq_nil_of_length_eq_zero hlength.symm) hne
  | cons hfirst _ =>
      rw [hfirst] at htick
      cases htick
      exact List.mem_cons_self

end Database

end Ferratomic
