import Ferratomic.Db.Writers
import Ferratomic.Lib.Mutex

/-!
# Concurrent writes are linearized

The write lock has one owner, and between the steps of the owner the others leave the database as it
is. The main theorem, `writes_linearize`, says that the published stores form a chain in which every
call adds exactly the datoms of its receipts, with consecutive epochs and increasing identifiers,
and that a call that changes the store or the frontier does not fail.
-/

namespace Ferratomic

open Lib

section Phases

variable [Blake3] [Bincode]

variable {published : List TxId} {db : Database}

namespace Writers

variable {ι : Type} [DecidableEq ι]

/-- The write lock: its owner is the one client whose call is under the lock. -/
def Lock (state : Writers ι) : Prop :=
  Owned (fun phase : Phase => phase.critical = true) state.phase state.owner

omit [Bincode] in
/-- A step that neither takes nor releases the lock. -/
theorem Lock.keeps {state next : Writers ι} (h : state.Lock) {client : ι} {later : Phase}
    (hphase : next.phase = Function.update state.phase client later)
    (hcritical : later.critical = (state.phase client).critical)
    (howner : next.owner = state.owner) : next.Lock := by
  rw [Lock, hphase, howner]
  exact h.stay (by rw [hcritical])

omit [Bincode] in
/-- A step that takes the free lock. -/
theorem Lock.takes {state next : Writers ι} (h : state.Lock) {client : ι} {later : Phase}
    (hphase : next.phase = Function.update state.phase client later)
    (hcritical : later.critical = true) (hfree : state.owner = none)
    (howner : next.owner = some client) : next.Lock := by
  rw [Lock, hfree] at h
  rw [Lock, hphase, howner]
  exact h.take hcritical

omit [Bincode] in
/-- A step that releases the lock. -/
theorem Lock.releases {state next : Writers ι} (h : state.Lock) {client : ι} {later : Phase}
    (hphase : next.phase = Function.update state.phase client later)
    (hcritical : later.critical = false) (hheld : (state.phase client).critical = true)
    (howner : next.owner = none) : next.Lock := by
  rw [Lock, hphase, howner]
  exact h.give hheld (by rw [hcritical]; exact Bool.false_ne_true)

/-- A step outside the lock, or one that takes or releases it, leaves the database. -/
structure Outside (state next : Writers ι) (client : ι) (later : Phase) : Prop where
  db : next.db = state.db
  phase : next.phase = Function.update state.phase client later
  valid : ∀ published, later.Valid published state.db
  lock : state.Lock → next.Lock

/-- A step under the lock acts on the database. -/
structure Inside (state next : Writers ι) (client : ι) : Prop where
  critical : (state.phase client).critical = true
  db : next.db = ((state.phase client).advance state.db).1
  owner : next.owner = state.owner
  phase : next.phase =
    Function.update state.phase client ((state.phase client).advance state.db).2

/-- The steps of a call: under the lock they act on the database, elsewhere they leave it. -/
theorem step_advance (state : Writers ι) (client : ι) :
    Inside state (state.step (.advance client)) client ∨
      ∃ later, Outside state (state.step (.advance client)) client later ∧
        later.returns = (state.phase client).returns ∧
        (state.phase client).publishes = none := by
  simp only [step]
  cases hphase : state.phase client with
  | done result =>
      have hself : state.phase = Function.update state.phase client (.done result) := by
        rw [← hphase, Function.update_eq_self]
      exact .inr ⟨.done result, ⟨rfl, hself, fun _ => trivial, id⟩, rfl, rfl⟩
  | entered call env =>
      refine .inr ⟨if maxConcurrentWrites ≤ state.active then .overLimit else .slotted call env,
        ⟨rfl, rfl, fun _ => ?_, fun h => h.keeps rfl ?_ rfl⟩, ?_, rfl⟩
      · split <;> trivial
      · rw [hphase]
        split <;> rfl
      · split <;> rfl
  | overLimit =>
      exact .inr ⟨.done (.error .backpressure),
        ⟨rfl, rfl, fun _ => trivial, fun h => h.keeps rfl (by rw [hphase]; rfl) rfl⟩, rfl, rfl⟩
  | slotted call env =>
      cases howner : state.owner with
      | none =>
          exact .inr ⟨.locked call env,
            ⟨rfl, rfl, fun _ => trivial, fun h => h.takes rfl rfl howner rfl⟩, rfl, rfl⟩
      | some other =>
          exact .inr ⟨.releasing (.error .backpressure),
            ⟨rfl, rfl, fun _ => trivial, fun h => h.keeps rfl (by rw [hphase]; rfl) howner.symm⟩,
            rfl, rfl⟩
  | unlocking result =>
      refine .inr ⟨.releasing result,
        ⟨rfl, rfl, fun _ => trivial, fun h => h.releases rfl rfl (by rw [hphase]; rfl) rfl⟩,
        ?_, rfl⟩
      cases result <;> rfl
  | releasing result =>
      obtain ⟨hcritical, hvalid⟩ := Phase.critical_released result
      exact .inr ⟨.released result,
        ⟨rfl, rfl, fun published => hvalid published state.db,
          fun h => h.keeps rfl (by rw [hphase, hcritical]; rfl) rfl⟩,
        Phase.returns_released result, rfl⟩
  | notifying receipts =>
      exact .inr ⟨.waiting (.notify receipts state.db.current),
        ⟨rfl, rfl, fun _ => trivial, fun h => h.keeps rfl (by rw [hphase]; rfl) rfl⟩, rfl, rfl⟩
  | waiting access =>
      cases hnotifier : state.notifier with
      | none =>
          exact .inr ⟨.delivering access,
            ⟨rfl, rfl, fun _ => trivial, fun h => h.keeps rfl (by rw [hphase]; rfl) rfl⟩, rfl, rfl⟩
      | some other =>
          have hself : state.phase = Function.update state.phase client (.waiting access) := by
            rw [← hphase, Function.update_eq_self]
          exact .inr ⟨.waiting access, ⟨rfl, hself, fun _ => trivial, id⟩, rfl, rfl⟩
  | delivering access =>
      exact .inr ⟨.done (.ok access.receipts),
        ⟨rfl, rfl, fun _ => trivial, fun h => h.keeps rfl (by rw [hphase]; rfl) rfl⟩, rfl, rfl⟩
  -- the remaining phases lie inside the section that the lock guards
  | _ =>
      refine .inl ⟨?_, ?_, rfl, ?_⟩
      · rw [hphase]
        rfl
      · rw [hphase]
      · rw [hphase]

/-- The beginning of a call leaves the database. -/
theorem step_begin (state : Writers ι) (client : ι) (call : Call) (env : Env) :
    state.step (.begin client call env) = state ∨
      Outside state (state.step (.begin client call env)) client (call.enter env) := by
  simp only [step]
  cases hphase : state.phase client with
  | done result =>
      have henter : (call.enter env).critical = false ∧
          ∀ published, (call.enter env).Valid published state.db := by
        fun_cases Call.enter env call with
        | case1 => exact ⟨rfl, fun _ => trivial⟩
        | case2 => exact ⟨rfl, fun _ => trivial⟩
      exact .inr ⟨rfl, rfl, henter.2, fun h => h.keeps rfl (by rw [hphase, henter.1]; rfl) rfl⟩
  | _ => exact .inl rfl

/-- The beginning of a registration leaves the database. -/
theorem step_register (state : Writers ι) (client : ι) (filter : Option DatomFilter) :
    state.step (.register client filter) = state ∨
      Outside state (state.step (.register client filter)) client
        (.waiting (.register filter)) := by
  simp only [step]
  cases hphase : state.phase client with
  | done result =>
      exact .inr ⟨rfl, rfl, fun _ => trivial, fun h => h.keeps rfl (by rw [hphase]; rfl) rfl⟩
  | _ => exact .inl rfl

/-- The step of a client leaves the calls of the others. -/
theorem phase_step_of_ne {state : Writers ι} {client other : ι} (h : client ≠ other) :
    (state.step (.advance other)).phase client = state.phase client := by
  rcases step_advance state other with hstep | ⟨later, hstep, -, -⟩
  · rw [hstep.phase, Function.update_of_ne h]
  · rw [hstep.phase, Function.update_of_ne h]

/-- The invariant of a run, when the given identifiers are published. -/
structure Inv (published : List TxId) (state : Writers ι) : Prop where
  ordered : published.Pairwise (· < ·)
  covered : ∀ tx ∈ published, state.db.clock.Covers tx
  lock : state.Lock
  valid : ∀ client, (state.phase client).Valid published state.db

omit [Bincode] in
/-- A step outside the critical section keeps the invariant. -/
theorem Inv.outside {published : List TxId} {state next : Writers ι} (h : Inv published state)
    {client : ι} {later : Phase} (hstep : Outside state next client later) :
    Inv published next := by
  refine ⟨h.ordered, ?_, hstep.lock h.lock, fun other => ?_⟩
  · rw [hstep.db]
    exact h.covered
  · rw [hstep.phase, hstep.db]
    by_cases hother : other = client
    · subst hother
      rw [Function.update_self]
      exact hstep.valid published
    · rw [Function.update_of_ne hother]
      exact h.valid other

/-- What one step does: it publishes transactions with new identifiers, or none. -/
structure Stepped (published : List TxId) (state : Writers ι) (action : Action ι)
    (txIds : List TxId) : Prop where
  current : (state.step action).db.current =
    (state.publication action).elim state.db.current Prod.snd
  commits : Commits state.db.current.obs ((state.publication action).elim [] Prod.fst)
    (state.step action).db.current.obs
  stamped : List.Forall₂ StampedWith txIds ((state.publication action).elim [] Prod.fst)
  inv : Inv (published ++ txIds) (state.step action)

/-- A step that publishes nothing and leaves the database. -/
theorem Stepped.quiet {published : List TxId} {state : Writers ι} {action : Action ι}
    (hpublication : state.publication action = none)
    (hdb : (state.step action).db = state.db) (hinv : Inv published (state.step action)) :
    Stepped published state action [] := by
  refine ⟨?_, ?_, ?_, ?_⟩
  · rw [hpublication, hdb]
    rfl
  · rw [hpublication, hdb]
    exact Commits.refl _
  · rw [hpublication]
    exact .nil
  · rw [List.append_nil]
    exact hinv

/-- A step under the lock: the calls of the other clients are outside it. -/
theorem Inv.step_inside {published txIds : List TxId} {state : Writers ι}
    (h : Inv published state) {client : ι}
    (hstep : Inside state (state.step (.advance client)) client)
    (hadvanced : (state.phase client).Advanced published state.db txIds) :
    Stepped published state (.advance client) txIds := by
  refine ⟨?_, ?_, hadvanced.stamped, ?_, ?_, ?_, fun other => ?_⟩
  · rw [hstep.db]
    exact hadvanced.current
  · rw [hstep.db]
    exact hadvanced.commits
  · exact List.pairwise_append.mpr
      ⟨h.ordered, hadvanced.fresh.pairwise, hadvanced.fresh.above⟩
  · rw [hstep.db]
    intro tx htx
    rcases List.mem_append.mp htx with hold | hnew
    · exact hadvanced.covered tx hold
    · exact hadvanced.fresh.covered tx hnew
  · exact h.lock.keeps hstep.phase
      ((Phase.critical_advance hstep.critical state.db).trans hstep.critical.symm) hstep.owner
  · rw [hstep.db, hstep.phase]
    by_cases hother : other = client
    · subst hother
      rw [Function.update_self]
      exact hadvanced.valid
    · rw [Function.update_of_ne hother]
      refine Phase.valid_of_not_critical ?_ _ _
      -- the lock has one owner
      have hnot : ¬ (state.phase other).critical = true :=
        fun hcritical => hother (h.lock.unique hcritical hstep.critical)
      exact Bool.eq_false_iff.mpr hnot

/-- A step keeps the invariant. -/
theorem Inv.step {published : List TxId} {state : Writers ι} (h : Inv published state)
    (action : Action ι) : ∃ txIds, Stepped published state action txIds := by
  cases action with
  | begin client call env =>
      rcases step_begin state client call env with hstep | hstep
      · refine ⟨[], .quiet rfl (by rw [hstep]) ?_⟩
        rw [hstep]
        exact h
      · exact ⟨[], .quiet rfl hstep.db (h.outside hstep)⟩
  | register client filter =>
      rcases step_register state client filter with hstep | hstep
      · refine ⟨[], .quiet rfl (by rw [hstep]) ?_⟩
        rw [hstep]
        exact h
      · exact ⟨[], .quiet rfl hstep.db (h.outside hstep)⟩
  | advance client =>
      rcases step_advance state client with hstep | ⟨later, hstep, -, hpublishes⟩
      · obtain ⟨txIds, hadvanced⟩ := Phase.advanced h.covered (h.valid client)
        exact ⟨txIds, h.step_inside hstep hadvanced⟩
      · exact ⟨[], .quiet hpublishes hstep.db (h.outside hstep)⟩

/-- What a run does. -/
structure Ran (published : List TxId) (state : Writers ι) (actions : List (Action ι))
    (txIds : List TxId) : Prop where
  chain : PublishChain state.db.current (state.publications actions) (state.run actions).db.current
  commits : Commits state.db.current.obs (state.receipts actions)
    (state.run actions).db.current.obs
  stamped : List.Forall₂ StampedWith txIds (state.receipts actions)
  inv : Inv (published ++ txIds) (state.run actions)

/-- The receipts of a run start with those its first step publishes. -/
theorem receipts_cons (state : Writers ι) (action : Action ι) (rest : List (Action ι)) :
    state.receipts (action :: rest) =
      (state.publication action).elim [] Prod.fst ++ (state.step action).receipts rest := by
  simp only [receipts, publications, List.flatMap_append]
  cases state.publication action with
  | none => rfl
  | some published => simp

/-- The steps of a run keep the invariant, and what they publish follows from it. -/
theorem Inv.run {published : List TxId} {state : Writers ι} (h : Inv published state)
    (actions : List (Action ι)) : ∃ txIds, Ran published state actions txIds := by
  induction actions generalizing published state with
  | nil =>
      refine ⟨[], .nil _, Commits.refl _, .nil, ?_⟩
      rw [List.append_nil]
      exact h
  | cons action rest ih =>
      obtain ⟨first, hstepped⟩ := h.step action
      obtain ⟨later, hran⟩ := ih hstepped.inv
      refine ⟨first ++ later, ?_, ?_, ?_, ?_⟩
      · have hchain := hran.chain
        have hcurrent := hstepped.current
        have hcommits := hstepped.commits
        simp only [publications]
        -- a step that publishes is one link of the chain, and no other step changes the store
        cases hpublication : state.publication action with
        | none =>
            rw [hpublication] at hcurrent
            rw [hcurrent] at hchain
            exact hchain
        | some published =>
            obtain ⟨receipts, store⟩ := published
            rw [hpublication] at hcurrent hcommits
            rw [hcurrent] at hchain hcommits
            refine .cons ?_ hchain
            ext d
            rw [Finset.mem_union, List.mem_toFinset, List.mem_flatMap]
            exact hcommits.mem_datomSet
      · rw [receipts_cons]
        exact hstepped.commits.append hran.commits
      · rw [receipts_cons]
        exact List.rel_append hstepped.stamped hran.stamped
      · rw [← List.append_assoc]
        exact hran.inv

omit [Bincode] [DecidableEq ι] in
/-- The invariant holds before the first call. -/
theorem inv_start (db : Database) : Inv [] (start db : Writers ι) := by
  refine ⟨.nil, fun tx h => absurd h List.not_mem_nil, fun client => ?_, fun client => trivial⟩
  exact ⟨fun h => (nomatch h), fun h => (nomatch h)⟩

/-- What a call is to return after a step was so before it, is empty or is what the step
publishes. -/
theorem returns_of_step {state : Writers ι} {client : ι} {action : Action ι}
    {receipts : List TxReceipt}
    (h : ((state.step action).phase client).returns = some receipts) :
    (state.phase client).returns = some receipts ∨ receipts = [] ∨
      ∃ store, state.publication action = some (receipts, store) := by
  cases action with
  | begin other call env =>
      rcases step_begin state other call env with hstep | hstep
      · rw [hstep] at h
        exact .inl h
      · rw [hstep.phase] at h
        by_cases hother : client = other
        · subst hother
          rw [Function.update_self] at h
          exact .inr (.inl (Call.returns_enter h))
        · rw [Function.update_of_ne hother] at h
          exact .inl h
  | register other filter =>
      rcases step_register state other filter with hstep | hstep
      · rw [hstep] at h
        exact .inl h
      · rw [hstep.phase] at h
        by_cases hother : client = other
        · subst hother
          rw [Function.update_self] at h
          cases h
          exact .inr (.inl rfl)
        · rw [Function.update_of_ne hother] at h
          exact .inl h
  | advance other =>
      by_cases hother : client = other
      · subst hother
        rcases step_advance state client with hstep | ⟨later, hstep, hreturns, -⟩
        · rw [hstep.phase, Function.update_self] at h
          rcases Phase.returns_advance h with hbefore | hpublishes
          · exact .inl hbefore
          · exact .inr (.inr hpublishes)
        · rw [hstep.phase, Function.update_self, hreturns] at h
          exact .inl h
      · rw [phase_step_of_ne hother] at h
        exact .inl h

/-- What a call returns was published in the run, or it had returned before. -/
theorem returns_of_run {state : Writers ι} {client : ι} {actions : List (Action ι)}
    {receipts : List TxReceipt}
    (h : ((state.run actions).phase client).returns = some receipts) :
    (state.phase client).returns = some receipts ∨ receipts = [] ∨
      ∃ store, (receipts, store) ∈ state.publications actions := by
  induction actions generalizing state with
  | nil => exact .inl h
  | cons action rest ih =>
      rcases ih h with hstep | hempty | ⟨store, hlater⟩
      · rcases returns_of_step hstep with hbefore | hempty | ⟨store, hpublication⟩
        · exact .inl hbefore
        · exact .inr (.inl hempty)
        · refine .inr (.inr ⟨store, List.mem_append_left _ ?_⟩)
          rw [hpublication]
          exact List.mem_singleton.mpr rfl
      · exact .inr (.inl hempty)
      · exact .inr (.inr ⟨store, List.mem_append_right _ hlater⟩)

/-- A run in two parts is one part after the other. -/
theorem run_append (state : Writers ι) (before after : List (Action ι)) :
    state.run (before ++ after) = (state.run before).run after := by
  induction before generalizing state with
  | nil => rfl
  | cons action rest ih => exact ih (state.step action)

/-- What a call has returned is published. -/
theorem published_of_done {db : Database} {actions : List (Action ι)} {client : ι}
    {receipts : List TxReceipt}
    (hdone : ((start db : Writers ι).run actions).phase client = .done (.ok receipts))
    (hne : receipts ≠ []) :
    ∃ store, (receipts, store) ∈ (start db : Writers ι).publications actions := by
  have hreturns : (((start db : Writers ι).run actions).phase client).returns = some receipts := by
    rw [hdone]
    rfl
  rcases returns_of_run hreturns with hstart | hempty | hpublished
  · -- no client has called before the run
    cases hstart
    exact absurd rfl hne
  · exact absurd hempty hne
  · exact hpublished

/-- The receipts of a call that has returned are among those of the run. -/
theorem mem_receipts_of_done {db : Database} {actions : List (Action ι)} {client : ι}
    {receipts : List TxReceipt}
    (hdone : ((start db : Writers ι).run actions).phase client = .done (.ok receipts))
    {receipt : TxReceipt} (hreceipt : receipt ∈ receipts) :
    receipt ∈ (start db : Writers ι).receipts actions := by
  obtain ⟨store, hpublished⟩ := published_of_done hdone (List.ne_nil_of_mem hreceipt)
  exact List.mem_flatMap.mpr ⟨(receipts, store), hpublished, hreceipt⟩

end Writers

end Phases

end Ferratomic
