import Ferratomic.Db.Lifetimes

/-!
# Batches against single transactions

`batch_transact` is documented to give the result of applying its transactions one by one with
`transact`. It stamps, evolves the schema and splices on a path of its own, and it never advances
the frontier. The main theorem, `batch_equivalent_iff`, says that a batch that succeeds agrees
with the single transactions exactly when it is empty.
-/

namespace Ferratomic

open Lib

/-- The environment of the transactions from an index of a batch on. -/
def Env.from (env : Env) (index : Nat) : Env :=
  ⟨fun i => env.now (index + i), fun i => env.order (index + i), fun i => env.write (index + i),
    fun i => env.sync (index + i)⟩

/-- The transactions of a batch as single calls, with the same readings and outcomes. -/
def oneByOne (env : Env) (index : Nat) : List Transaction → List (Call × Env)
  | [] => []
  | transaction :: rest =>
      (.transact transaction, env.from index) :: oneByOne env (index + 1) rest

namespace Database

variable [Blake3]

section Covered

/-- The clock has reached what the frontier maps its node to. -/
def FrontierCovered (db : Database) : Prop :=
  ∀ tx, db.frontier[db.clock.node]? = some tx → db.clock.Covers tx

variable [Bincode]

/-- What a call does to the frontier: it stays, because the call fails or is a batch, or it maps
the clock's node to an identifier beyond all that the clock had reached. -/
theorem FrontierCovered.step_cases {db : Database} (h : db.FrontierCovered) (call : Call)
    (env : Env) :
    ((db.step call env).2.frontier = db.frontier ∧
      ((db.step call env).2.current = db.current ∨ ∃ items, call = .batchTransact items)) ∨
      ∃ tx, (db.step call env).2.frontier[db.clock.node]? = some tx ∧ ¬db.clock.Covers tx ∧
        (db.step call env).2.clock.Covers tx := by
  cases hresult : (db.step call env).1 with
  | error e =>
      obtain ⟨hcurrent, hfrontier⟩ := step_error hresult
      exact .inl ⟨hfrontier, .inl hcurrent⟩
  | ok receipts =>
      obtain ⟨txIds, hpublished⟩ := step_published hresult
      have hfrontier := hpublished.frontier
      have hlength := hpublished.length
      have hticks := hpublished.ticks
      -- a single transaction ticks once and advances to what the tick issued
      have hsingle {txId : TxId} (hone : txIds = [txId])
          (hadvance : (db.step call env).2.frontier = db.frontier.advance txId.node txId) :
          ∃ tx, (db.step call env).2.frontier[db.clock.node]? = some tx ∧ ¬db.clock.Covers tx ∧
            (db.step call env).2.clock.Covers tx := by
        subst hone
        refine ⟨txId, ?_, fun hcovers => ?_, hticks.issued.1 txId List.mem_cons_self⟩
        · rw [hadvance, hticks.node.2 txId List.mem_cons_self]
          refine Frontier.getElem?_advance fun known hknown => ?_
          exact hticks.lt (h known hknown) txId List.mem_cons_self
        · exact lt_irrefl txId (hticks.lt hcovers txId List.mem_cons_self)
      cases call with
      | batchTransact transactions => exact .inl ⟨hfrontier, .inr ⟨transactions, rfl⟩⟩
      | transact =>
          obtain ⟨txId, hone⟩ := List.length_eq_one_iff.mp hlength
          rw [hone] at hfrontier
          exact .inr (hsingle hone hfrontier)
      | transactSigned =>
          obtain ⟨txId, hone⟩ := List.length_eq_one_iff.mp hlength
          rw [hone] at hfrontier
          exact .inr (hsingle hone hfrontier)

/-- Every call keeps the frontier covered. -/
theorem FrontierCovered.step {db : Database} (h : db.FrontierCovered) (call : Call) (env : Env) :
    (db.step call env).2.FrontierCovered := by
  obtain ⟨txIds, hticks, -⟩ := stage_ticks db env call
  rw [← clock_step] at hticks
  intro tx htx
  rw [hticks.node.1] at htx
  rcases h.step_cases call env with ⟨hsame, -⟩ | ⟨new, hnew, -, hcovers⟩
  · rw [hsame] at htx
    exact hticks.covers (h tx htx)
  · rw [hnew] at htx
    cases htx
    exact hcovers

/-- In every life the clock has reached what the frontier maps its node to. -/
theorem frontierCovered_of_lives {opens : Database → Prop} {calls : Database → Call → Env → Prop}
    {db : Database} (h : Lives opens calls db) : db.FrontierCovered := by
  induction h with
  | opened hopening _ =>
      obtain ⟨store, attached, rfl⟩ := Opening.database_ok hopening
      intro tx htx
      cases htx
  | stepped _ _ ih => exact ih.step _ _

end Covered

section Equivalence

variable [Bincode]

/-- The batch publishes the store and leaves the frontier of the single transactions. -/
def BatchEquivalent (db : Database) (env : Env) (transactions : List Transaction) : Prop :=
  (db.batchTransact env transactions).2.current.obs =
      (db.run (oneByOne env 0 transactions)).2.current.obs ∧
    (db.batchTransact env transactions).2.frontier =
      (db.run (oneByOne env 0 transactions)).2.frontier

/-- What single transactions do to the database: nothing is published, or the frontier maps the
clock's node to an identifier beyond all that the clock had reached at the start. -/
theorem run_oneByOne {db : Database} (h : db.FrontierCovered) (env : Env) (index : Nat)
    (transactions : List Transaction) :
    ((db.run (oneByOne env index transactions)).2.current = db.current ∧
      (db.run (oneByOne env index transactions)).2.frontier = db.frontier) ∨
      ∃ tx, (db.run (oneByOne env index transactions)).2.frontier[db.clock.node]? = some tx ∧
        ¬db.clock.Covers tx := by
  induction transactions generalizing db index with
  | nil => exact .inl ⟨rfl, rfl⟩
  | cons transaction rest ih =>
      obtain ⟨txIds, hticks, -⟩ := stage_ticks db (env.from index) (.transact transaction)
      rw [← clock_step] at hticks
      show ((((db.step (.transact transaction) (env.from index)).2.run
          (oneByOne env (index + 1) rest)).2.current = db.current ∧ _) ∨ _)
      have hlater := ih (h.step (.transact transaction) (env.from index)) (index + 1)
      rw [hticks.node.1] at hlater
      rcases hlater with ⟨hcurrent, hfrontier⟩ | ⟨tx, hlookup, hbeyond⟩
      · rcases h.step_cases (.transact transaction) (env.from index) with
          ⟨hsame, hkept | ⟨items, hitems⟩⟩ | ⟨tx, hlookup, hbeyond, -⟩
        · exact .inl ⟨hcurrent.trans hkept, hfrontier.trans hsame⟩
        · cases hitems
        · refine .inr ⟨tx, ?_, hbeyond⟩
          rw [← hlookup, ← hfrontier]
          rfl
      · exact .inr ⟨tx, hlookup, fun hcovers => hbeyond (hticks.covers hcovers)⟩

/-- A batch of transactions that succeeds does not agree with the single transactions: they leave
another frontier, or publish nothing where the batch published. -/
theorem not_batchEquivalent {db : Database} (h : db.FrontierCovered) {env : Env}
    {transactions : List Transaction} (hne : transactions ≠ []) {receipts : List TxReceipt}
    (hok : (db.batchTransact env transactions).1 = .ok receipts) :
    ¬db.BatchEquivalent env transactions := by
  rintro ⟨hobs, hfrontier⟩
  have hstep : (db.step (.batchTransact transactions) env).1 = .ok receipts := hok
  obtain ⟨txIds, hpublished⟩ := step_published hstep
  rcases run_oneByOne h env 0 transactions with ⟨hcurrent, -⟩ | ⟨tx, hlookup, hbeyond⟩
  · -- the batch has advanced the epoch
    obtain ⟨epoch, schema, hstamps, hafter⟩ := hpublished.commits
    have hlt : db.current.epoch < epoch := by
      have hlength : txIds.length = transactions.length := hpublished.length
      have hreceipts : receipts ≠ [] := by
        rintro rfl
        rw [List.forall₂_nil_right_iff.mp hpublished.stamped] at hlength
        exact hne (List.eq_nil_of_length_eq_zero hlength.symm)
      obtain ⟨receipt, hreceipt⟩ := List.exists_mem_of_ne_nil receipts hreceipts
      obtain ⟨hafter, hupto⟩ := hstamps.epoch_mem hreceipt
      exact hafter.trans_le hupto
    have hepoch : epoch = db.current.epoch := by
      rw [hcurrent] at hobs
      exact (congrArg Observation.epoch hafter).symm.trans (congrArg Observation.epoch hobs)
    rw [hepoch] at hlt
    exact lt_irrefl _ hlt
  · -- the frontier of the batch is the one before it, which the clock had reached
    have hbatch : (db.batchTransact env transactions).2.frontier = db.frontier :=
      hpublished.frontier
    rw [← hfrontier, hbatch] at hlookup
    exact hbeyond (h tx hlookup)

/-- In every database that a store passes through, a batch that succeeds agrees with calling
`transact` on its transactions in order, with the same identifiers, exactly when it is empty. -/
theorem batch_equivalent_iff {opens : Database → Prop} {calls : Database → Call → Env → Prop}
    {db : Database} (hlives : Lives opens calls db) {env : Env}
    {transactions : List Transaction} {receipts : List TxReceipt}
    (hok : (db.batchTransact env transactions).1 = .ok receipts) :
    db.BatchEquivalent env transactions ↔ transactions = [] := by
  constructor
  · intro hequivalent
    by_contra hne
    exact not_batchEquivalent (frontierCovered_of_lives hlives) hne hok hequivalent
  · rintro rfl
    exact ⟨rfl, rfl⟩

end Equivalence

end Database

open Sample

namespace Database

/-- A batch of one transaction on a genesis database succeeds and does not agree with it. -/
theorem batch_equivalent_iff_document :
    Lives (fun _ => True) (fun _ _ _ => True) genesis ∧
      (genesis.batchTransact (working 10) [document]).1.toOption.map List.length = some 1 ∧
      (genesis.BatchEquivalent (working 10) [document] ↔ [document] = []) := by
  have hlives : Lives (fun _ => True) (fun _ _ _ => True) genesis :=
    .opened (show Opening.genesis.database = .ok genesis from rfl) trivial
  have hlength : (genesis.batchTransact (working 10) [document]).1.toOption.map List.length =
      some 1 := by
    decide +kernel
  obtain ⟨receipts, hok, -⟩ := exists_ok_of_length hlength
  exact ⟨hlives, hlength, batch_equivalent_iff hlives hok⟩

/-- The batch of one transaction publishes it without advancing the frontier. -/
theorem batch_differs_from_transact : ¬genesis.BatchEquivalent (working 10) [document] := by
  have hlives : Lives (fun _ => True) (fun _ _ _ => True) genesis :=
    .opened (show Opening.genesis.database = .ok genesis from rfl) trivial
  have hlength : (genesis.batchTransact (working 10) [document]).1.toOption.map List.length =
      some 1 := by
    decide +kernel
  obtain ⟨receipts, hok, -⟩ := exists_ok_of_length hlength
  exact not_batchEquivalent (frontierCovered_of_lives hlives) (List.cons_ne_nil _ _) hok

end Database

end Ferratomic
