import Ferratomic.Db.Slots

/-!
# Waiting and progress

A call asks for a slot of the limiter and for the write lock without waiting for them, but it waits
for the mutex of the observers: a client holds it while it delivers what it has committed, or while
it registers an observer. The main theorem, `calls_return`, says that a call returns within a number
of its own steps that only depends on its transactions, apart from those at which it is blocked, and
that it is blocked by one other client at a time, which is about to give the mutex back.
-/

namespace Ferratomic

open Lib

section Phases

variable [Blake3]

/-- The call waits for the mutex of the observers. -/
def Phase.waits : Phase → Bool
  | waiting _ => true
  | _ => false

/-- The call holds the mutex of the observers. -/
def Phase.delivers : Phase → Bool
  | delivering _ => true
  | _ => false

/-- A call that holds the mutex of the observers does not wait for it. -/
theorem Phase.waits_of_delivers {phase : Phase} (h : phase.delivers = true) :
    phase.waits = false := by
  cases phase with
  | waiting => cases h
  | _ => rfl

/-- A call under the lock does not hold the mutex of the observers. -/
theorem Phase.not_delivers_of_critical {phase : Phase} (h : phase.critical = true) :
    ¬phase.delivers = true := by
  cases phase with
  | delivering => cases h
  | _ => exact Bool.false_ne_true

/-- Behind the release of the slot the call does not hold the mutex of the observers yet. -/
theorem Phase.delivers_released (result : Except FerraError (List TxReceipt)) :
    (Phase.released result).delivers = false := by
  fun_cases Phase.released result with
  | case1 => rfl
  | case2 => rfl

/-- How many steps a call takes at most before it returns, the write of each log entry being one. -/
def Phase.stepsLeft : Phase → Nat
  | done _ => 0
  | overLimit => 1
  | delivering _ => 1
  | waiting _ => 2
  | notifying _ => 3
  | releasing _ => 4
  | unlocking _ => 5
  | published _ _ => 6
  | logging _ index receipts _ _ => 7 + (receipts.length - index)
  | loaded _ ticket _ _ => 8 + ticket.txIds.length
  | snapped _ ticket _ => 9 + ticket.txIds.length
  | ticked _ ticket => 10 + ticket.txIds.length
  | locked call _ => 11 + call.transactions.length
  | slotted call _ => 12 + call.transactions.length
  | entered call _ => 13 + call.transactions.length

/-- A call without steps to take is over. -/
theorem Phase.returned_of_stepsLeft {phase : Phase} (h : phase.stepsLeft = 0) :
    phase.returned = true := by
  cases phase with
  | done => rfl
  | _ =>
      simp only [stepsLeft] at h
      omega

/-- A call that is over has no steps to take. -/
theorem Phase.stepsLeft_of_returned {phase : Phase} (h : phase.returned = true) :
    phase.stepsLeft = 0 := by
  cases phase with
  | done => rfl
  | _ => cases h

/-- How many steps a call takes depends on its transactions. -/
theorem Call.stepsLeft_enter (call : Call) (env : Env) :
    (call.enter env).stepsLeft ≤ 13 + call.transactions.length := by
  fun_cases Call.enter env call with
  | case1 => exact Nat.zero_le _
  | case2 => exact Nat.le_refl _

/-- At most three steps follow the release of the slot. -/
theorem Phase.stepsLeft_released (result : Except FerraError (List TxReceipt)) :
    (Phase.released result).stepsLeft ≤ 3 := by
  fun_cases Phase.released result with
  | case1 => exact Nat.le_refl _
  | case2 => exact Nat.zero_le _

omit [Blake3] in
/-- A ticket has an identifier for each transaction of its call. -/
theorem Call.length_tick {call : Call} {clock : HybridClock} {env : Env} {ticket : Ticket}
    (h : (call.tick clock env).1 = .ok ticket) :
    ticket.txIds.length = call.transactions.length := by
  have hsingle {transaction : Transaction} {key : Option SigningKey}
      (h : (Ticket.tick clock env transaction key).1 = .ok ticket) : ticket.txIds.length = 1 := by
    unfold Ticket.tick at h
    split at h
    · cases h
    · cases h
      rfl
  cases call with
  | transact transaction => exact hsingle h
  | transactSigned transaction key => exact hsingle h
  | batchTransact transactions =>
      simp only [Call.tick] at h
      obtain ⟨txIds, -, hok⟩ := Database.tickBatches_ticks env clock 0 transactions
      split at h
      case h_1 => cases h
      case h_2 batches next htick =>
          cases h
          rw [htick] at hok
          obtain ⟨hsnd, hlength⟩ := hok batches rfl
          rw [Ticket.txIds, hsnd, hlength]
          rfl

variable [Bincode]

/-- A step under the lock leaves the call fewer steps to take. -/
theorem Phase.stepsLeft_advance {phase : Phase} (h : phase.critical = true)
    (hlocked : ∀ result, phase ≠ .unlocking result) (db : Database) :
    (phase.advance db).2.stepsLeft + 1 ≤ phase.stepsLeft := by
  fun_cases Phase.advance db phase with
  | case1 call env e clock htick =>
      simp only [stepsLeft]
      omega
  | case2 call env ticket clock htick =>
      simp only [stepsLeft, Call.length_tick (congrArg Prod.fst htick)]
      omega
  | case7 env ticket frontier store receipts next advance happly =>
      obtain ⟨hstamped, -⟩ := Ticket.apply_ok happly
      simp only [stepsLeft, ← hstamped.length_eq]
      omega
  | case9 env index receipts store advance receipt hentry next hwrite =>
      obtain ⟨hlt, -⟩ := List.getElem?_eq_some_iff.mp hentry
      simp only [stepsLeft]
      omega
  | case13 _ hlocking hsingle hbatch hsnapped hloaded hlogging hpublished =>
      cases phase with
      | locked => exact (hlocking _ _ rfl).elim
      | ticked env ticket =>
          cases ticket with
          | single => exact (hsingle _ _ _ _ rfl).elim
          | batch => exact (hbatch _ _ rfl).elim
      | snapped => exact (hsnapped _ _ _ rfl).elim
      | loaded => exact (hloaded _ _ _ _ rfl).elim
      | logging => exact (hlogging _ _ _ _ _ rfl).elim
      | published => exact (hpublished _ _ rfl).elim
      | unlocking result => exact absurd rfl (hlocked result)
      | _ => cases h
  | _ =>
      simp only [stepsLeft]
      omega

namespace Writers

variable {ι : Type} [DecidableEq ι]

/-- The mutex of the observers: its owner is the one client that delivers. -/
def Notifying (state : Writers ι) : Prop :=
  Owned (fun phase : Phase => phase.delivers = true) state.phase state.notifier

omit [Bincode] [DecidableEq ι] in
/-- Nobody delivers at the start. -/
theorem notifying_start (db : Database) : (start db : Writers ι).Notifying :=
  .free fun _ => Bool.false_ne_true

omit [Bincode] in
/-- A step of a client that does not deliver, neither before nor after. -/
theorem Notifying.stay {state next : Writers ι} (h : state.Notifying) {client : ι} {later : Phase}
    (hphase : next.phase = Function.update state.phase client later)
    (hnotifier : next.notifier = state.notifier) (hlater : ¬later.delivers = true)
    (hbefore : ¬(state.phase client).delivers = true) : next.Notifying := by
  rw [Notifying, hphase, hnotifier]
  exact Owned.stay h ⟨fun hkind => absurd hkind hlater, fun hkind => absurd hkind hbefore⟩

/-- A step keeps the mutex in line with the phases. -/
theorem Notifying.step {state : Writers ι} (h : state.Notifying) (action : Action ι) :
    (state.step action).Notifying := by
  cases action with
  | begin client call env =>
      simp only [Writers.step]
      cases hphase : state.phase client with
      | done result =>
          refine h.stay rfl rfl ?_ (by rw [hphase]; exact Bool.false_ne_true)
          fun_cases Call.enter env call with
          | case1 => exact Bool.false_ne_true
          | case2 => exact Bool.false_ne_true
      | _ => exact h
  | register client filter =>
      simp only [Writers.step]
      cases hphase : state.phase client with
      | done result =>
          exact h.stay rfl rfl Bool.false_ne_true (by rw [hphase]; exact Bool.false_ne_true)
      | _ => exact h
  | advance client =>
      simp only [Writers.step]
      cases hphase : state.phase client with
      | done result => exact h
      | entered call env =>
          refine h.stay rfl rfl ?_ (by rw [hphase]; exact Bool.false_ne_true)
          split
          · exact Bool.false_ne_true
          · exact Bool.false_ne_true
      | overLimit =>
          exact h.stay rfl rfl Bool.false_ne_true (by rw [hphase]; exact Bool.false_ne_true)
      | slotted call env =>
          cases state.owner with
          | none =>
              exact h.stay rfl rfl Bool.false_ne_true (by rw [hphase]; exact Bool.false_ne_true)
          | some other =>
              exact h.stay rfl rfl Bool.false_ne_true (by rw [hphase]; exact Bool.false_ne_true)
      | unlocking result =>
          exact h.stay rfl rfl Bool.false_ne_true (by rw [hphase]; exact Bool.false_ne_true)
      | releasing result =>
          refine h.stay rfl rfl ?_ (by rw [hphase]; exact Bool.false_ne_true)
          rw [Phase.delivers_released result]
          exact Bool.false_ne_true
      | notifying receipts =>
          exact h.stay rfl rfl Bool.false_ne_true (by rw [hphase]; exact Bool.false_ne_true)
      | waiting access =>
          cases hnotifier : state.notifier with
          | none =>
              rw [Notifying, hnotifier] at h
              exact Owned.take h rfl
          | some other => exact h
      | delivering access => exact Owned.give h (by rw [hphase]; rfl) Bool.false_ne_true
      | _ =>
          have hcritical : (state.phase client).critical = true := by
            rw [hphase]
            rfl
          have hlater := Phase.critical_advance hcritical state.db
          rw [hphase] at hlater
          refine h.stay rfl rfl (Phase.not_delivers_of_critical hlater) ?_
          rw [hphase]
          exact Bool.false_ne_true

/-- A run keeps the mutex in line with the phases. -/
theorem Notifying.run {state : Writers ι} (h : state.Notifying) (actions : List (Action ι)) :
    (state.run actions).Notifying := by
  induction actions generalizing state with
  | nil => exact h
  | cons action rest ih => exact ih (h.step action)

/-- The step belongs to the call of the client. -/
def isStepOf (client : ι) : Action ι → Bool
  | .begin _ _ _ => false
  | .register _ _ => false
  | .advance other => decide (other = client)

omit [Blake3] [Bincode] in
/-- A step that belongs to the call advances it. -/
theorem eq_advance_of_isStepOf {client : ι} {action : Action ι}
    (h : isStepOf client action = true) : action = .advance client := by
  cases action with
  | begin => cases h
  | register => cases h
  | advance other =>
      rw [isStepOf, decide_eq_true_eq] at h
      rw [h]

/-- The client waits for the mutex of the observers and another one holds it: its next step leaves
it where it is. -/
def blocked (state : Writers ι) (client : ι) : Bool :=
  (state.phase client).waits && state.notifier.isSome

/-- The steps of a client in a run, without those at which it is blocked. -/
def stepsTaken (client : ι) (state : Writers ι) : List (Action ι) → Nat
  | [] => 0
  | action :: rest =>
      (if isStepOf client action && !state.blocked client then 1 else 0) +
        stepsTaken client (state.step action) rest

/-- A blocked step does nothing. -/
theorem step_of_blocked {state : Writers ι} {client : ι} (h : state.blocked client = true) :
    state.step (.advance client) = state := by
  obtain ⟨hwaits, hheld⟩ := Bool.and_eq_true_iff.mp h
  rw [Writers.step]
  cases hphase : state.phase client with
  | waiting access =>
      cases hnotifier : state.notifier with
      | none =>
          rw [hnotifier] at hheld
          cases hheld
      | some other => rfl
  | _ => exact absurd hwaits (by rw [hphase]; exact Bool.false_ne_true)

/-- A client whose call is over stays where it is. -/
theorem step_of_returned {state : Writers ι} {client : ι}
    (h : (state.phase client).returned = true) : state.step (.advance client) = state := by
  rw [Writers.step]
  cases hphase : state.phase client with
  | done result => rfl
  | _ =>
      rw [hphase] at h
      cases h

/-- The call that holds the mutex of the observers gives it back in its next step. -/
theorem Notifying.frees {state : Writers ι} (h : state.Notifying) {client : ι}
    (howner : state.notifier = some client) :
    (state.step (.advance client)).notifier = none := by
  have hdelivers : (state.phase client).delivers = true := (h client).mpr howner
  rw [Writers.step]
  cases hphase : state.phase client with
  | delivering access => rfl
  | _ =>
      rw [hphase] at hdelivers
      cases hdelivers

/-- A step of a call that is neither over nor blocked leaves it fewer steps to take. -/
theorem stepsLeft_step {state : Writers ι} {client : ι}
    (h : ¬(state.phase client).returned = true) (hfree : ¬state.blocked client = true) :
    ((state.step (.advance client)).phase client).stepsLeft + 1 ≤
      (state.phase client).stepsLeft := by
  rw [Writers.step]
  cases hphase : state.phase client with
  | done result => exact absurd (by rw [hphase]; rfl) h
  | entered call env =>
      simp only [Function.update_self]
      split
      · simp only [Phase.stepsLeft]
        omega
      · simp only [Phase.stepsLeft]
        omega
  | slotted call env =>
      cases state.owner with
      | none => simp [Phase.stepsLeft]
      | some owner =>
          simp only [Function.update_self, Phase.stepsLeft]
          omega
  | overLimit => simp [Phase.stepsLeft]
  | unlocking result => simp [Phase.stepsLeft]
  | releasing result =>
      simp only [Function.update_self]
      exact Nat.succ_le_succ (Phase.stepsLeft_released result)
  | notifying receipts => simp [Phase.stepsLeft]
  | waiting access =>
      cases hnotifier : state.notifier with
      | none => simp [Phase.stepsLeft]
      | some other =>
          refine absurd ?_ hfree
          rw [blocked, hphase, hnotifier]
          rfl
  | delivering access => simp [Phase.stepsLeft]
  | _ =>
      simp only [Function.update_self]
      exact Phase.stepsLeft_advance rfl (fun result h => by cases h) state.db

/-- The steps of the others leave a call where it is, and a client does not begin anything else
before its call is over. -/
theorem stepsLeft_of_not_isStepOf {state : Writers ι} {client : ι}
    (h : ¬(state.phase client).returned = true) {action : Action ι}
    (hother : isStepOf client action = false) :
    (state.step action).phase client = state.phase client := by
  have hbusy (result : Except FerraError (List TxReceipt)) :
      state.phase client ≠ .done result := by
    intro hphase
    rw [hphase] at h
    exact h rfl
  cases action with
  | begin other call env =>
      rcases step_begin state other call env with hstep | hstep
      · rw [hstep]
      · by_cases hsame : client = other
        · subst hsame
          rw [Writers.step]
          cases hphase : state.phase client with
          | done result => exact absurd hphase (hbusy result)
          | _ => exact hphase
        · rw [hstep.phase, Function.update_of_ne hsame]
  | register other filter =>
      rcases step_register state other filter with hstep | hstep
      · rw [hstep]
      · by_cases hsame : client = other
        · subst hsame
          rw [Writers.step]
          cases hphase : state.phase client with
          | done result => exact absurd hphase (hbusy result)
          | _ => exact hphase
        · rw [hstep.phase, Function.update_of_ne hsame]
  | advance other =>
      have hne : client ≠ other := by
        intro heq
        rw [isStepOf, decide_eq_false_iff_not] at hother
        exact hother heq.symm
      exact phase_step_of_ne hne

/-- A step of another client, or one at which the call is blocked, leaves the call where it is. -/
theorem phase_of_not_taken {state : Writers ι} {client : ι}
    (h : ¬(state.phase client).returned = true) {action : Action ι}
    (hown : (isStepOf client action && !state.blocked client) = false) :
    (state.step action).phase client = state.phase client := by
  cases hstep : isStepOf client action with
  | false => exact stepsLeft_of_not_isStepOf h hstep
  | true =>
      have hblocked : state.blocked client = true := by
        rw [hstep, Bool.true_and] at hown
        exact Bool.not_eq_eq_eq_not.mp hown
      rw [eq_advance_of_isStepOf hstep, step_of_blocked hblocked]

/-- A call that takes as many steps as it has left returns on the way. -/
theorem returns_within {state : Writers ι} {client : ι} {actions : List (Action ι)}
    (h : (state.phase client).stepsLeft ≤ stepsTaken client state actions) :
    ∃ first rest, actions = first ++ rest ∧
      stepsTaken client state first ≤ (state.phase client).stepsLeft ∧
      ((state.run first).phase client).returned = true := by
  induction actions generalizing state with
  | nil =>
      have hzero : (state.phase client).stepsLeft = 0 := Nat.le_zero.mp h
      exact ⟨[], [], rfl, Nat.zero_le _, Phase.returned_of_stepsLeft hzero⟩
  | cons action rest ih =>
      by_cases hreturned : (state.phase client).returned = true
      · exact ⟨[], action :: rest, rfl, Nat.zero_le _, hreturned⟩
      · rw [stepsTaken] at h
        cases hown : isStepOf client action && !state.blocked client with
        | true =>
            obtain ⟨hstep, hfree⟩ := Bool.and_eq_true_iff.mp hown
            obtain rfl := eq_advance_of_isStepOf hstep
            have hless := stepsLeft_step hreturned fun hblocked => by
              rw [hblocked] at hfree
              cases hfree
            rw [hown, if_pos rfl] at h
            have henough : ((state.step (.advance client)).phase client).stepsLeft ≤
                stepsTaken client (state.step (.advance client)) rest := by omega
            obtain ⟨first, later, hsplit, hcount, hdone⟩ := ih henough
            refine ⟨.advance client :: first, later, by rw [hsplit]; rfl, ?_, hdone⟩
            rw [stepsTaken, hown, if_pos rfl]
            omega
        | false =>
            have hsame := phase_of_not_taken hreturned hown
            rw [hown, if_neg Bool.false_ne_true, Nat.zero_add, ← hsame] at h
            obtain ⟨first, later, hsplit, hcount, hdone⟩ := ih h
            refine ⟨action :: first, later, by rw [hsplit]; rfl, ?_, hdone⟩
            rw [stepsTaken, hown, if_neg Bool.false_ne_true, Nat.zero_add, ← hsame]
            exact hcount

/-- A client that is blocked waits for another one, which gives the mutex back in its next step. -/
theorem Notifying.of_blocked {state : Writers ι} (h : state.Notifying) {client : ι}
    (hblocked : state.blocked client = true) :
    ∃ other, other ≠ client ∧ state.notifier = some other ∧ state.blocked other = false ∧
      (state.step (.advance other)).notifier = none := by
  obtain ⟨hwaits, hheld⟩ := Bool.and_eq_true_iff.mp hblocked
  obtain ⟨other, hother⟩ := Option.isSome_iff_exists.mp hheld
  have hdelivers : (state.phase other).delivers = true := (h other).mpr hother
  have hnotWaits : (state.phase other).waits = false := Phase.waits_of_delivers hdelivers
  refine ⟨other, ?_, hother, ?_, h.frees hother⟩
  · rintro rfl
    rw [hnotWaits] at hwaits
    cases hwaits
  · rw [blocked, hnotWaits, Bool.false_and]

omit [Bincode] [DecidableEq ι] in
/-- A client is not blocked when the mutex is free or its own. -/
theorem Notifying.not_blocked {state : Writers ι} (h : state.Notifying) {client : ι}
    (hnotifier : state.notifier = none ∨ state.notifier = some client) :
    ¬state.blocked client = true := by
  intro hblocked
  obtain ⟨hwaits, hheld⟩ := Bool.and_eq_true_iff.mp hblocked
  rcases hnotifier with hnone | hown
  · rw [hnone] at hheld
    cases hheld
  · rw [Phase.waits_of_delivers ((h client).mpr hown)] at hwaits
    cases hwaits

/-- The steps of a client leave the mutex free or make it its own. -/
theorem notifier_step {state : Writers ι} {client : ι}
    (h : state.notifier = none ∨ state.notifier = some client) :
    (state.step (.advance client)).notifier = none ∨
      (state.step (.advance client)).notifier = some client := by
  rw [Writers.step]
  cases hphase : state.phase client with
  | waiting access =>
      cases hnotifier : state.notifier with
      | none => exact .inr rfl
      | some other => exact h
  | delivering access => exact .inl rfl
  | slotted call env =>
      cases state.owner with
      | none => exact h
      | some other => exact h
  | _ => exact h

/-- A call that finds the mutex free returns by its own steps. -/
theorem Notifying.returned_run {state : Writers ι} (h : state.Notifying) {client : ι}
    (hnotifier : state.notifier = none ∨ state.notifier = some client) {count : Nat}
    (hcount : (state.phase client).stepsLeft ≤ count) :
    ((state.run (List.replicate count (.advance client))).phase client).returned = true := by
  induction count generalizing state with
  | zero => exact Phase.returned_of_stepsLeft (Nat.le_zero.mp hcount)
  | succ count ih =>
      refine ih (h.step _) (notifier_step hnotifier) ?_
      by_cases hreturned : (state.phase client).returned = true
      · rw [step_of_returned hreturned, Phase.stepsLeft_of_returned hreturned]
        exact Nat.zero_le _
      · have hless := stepsLeft_step hreturned (h.not_blocked hnotifier)
        omega

/-- A call is brought to its end by one step of the client that holds the mutex, if there is another
one, and its own steps. -/
theorem Notifying.brought_to_end {state : Writers ι} (h : state.Notifying) {client : ι}
    {bound : Nat} (hleft : (state.phase client).stepsLeft ≤ bound) :
    ∃ others : List (Action ι), others.length ≤ 1 ∧
      ((state.run (others ++ List.replicate bound (.advance client))).phase client).returned =
        true := by
  cases hnotifier : state.notifier with
  | none => exact ⟨[], Nat.zero_le _, h.returned_run (.inl hnotifier) hleft⟩
  | some other =>
      by_cases hown : client = other
      · subst hown
        exact ⟨[], Nat.zero_le _, h.returned_run (.inr hnotifier) hleft⟩
      · refine ⟨[.advance other], Nat.le_refl _, ?_⟩
        refine (h.step (.advance other)).returned_run (.inl (h.frees hnotifier)) ?_
        rw [phase_step_of_ne hown]
        exact hleft

/-- A call has at most as many steps left as when it began, until the client begins another one. -/
theorem stepsLeft_run {state : Writers ι} {client : ι} {bound : Nat} (hbound : 2 ≤ bound)
    (h : (state.phase client).stepsLeft ≤ bound) {actions : List (Action ι)}
    (hbegin : ∀ call env, .begin client call env ∉ actions) :
    ((state.run actions).phase client).stepsLeft ≤ bound := by
  induction actions generalizing state with
  | nil => exact h
  | cons action rest ih =>
      refine ih ?_ fun call env hmem => hbegin call env (List.mem_cons_of_mem _ hmem)
      cases action with
      | begin other call env =>
          have hother : client ≠ other := by
            rintro rfl
            exact hbegin call env List.mem_cons_self
          rcases step_begin state other call env with hstep | hstep
          · rw [hstep]
            exact h
          · rw [hstep.phase, Function.update_of_ne hother]
            exact h
      | register other filter =>
          rcases step_register state other filter with hstep | hstep
          · rw [hstep]
            exact h
          · rw [hstep.phase]
            by_cases hother : client = other
            · subst hother
              rw [Function.update_self]
              exact hbound
            · rw [Function.update_of_ne hother]
              exact h
      | advance other =>
          by_cases hother : client = other
          · subst hother
            by_cases hreturned : (state.phase client).returned = true
            · rw [step_of_returned hreturned]
              exact h
            · by_cases hblocked : state.blocked client = true
              · rw [step_of_blocked hblocked]
                exact h
              · have hless := stepsLeft_step hreturned hblocked
                omega
          · rw [phase_step_of_ne hother]
            exact h

/-- What holds of a call that a client has begun, whatever follows. -/
structure Answered (begun : Writers ι) (client : ι) (bound : Nat) : Prop where
  /-- It returns before it has taken more steps than the bound, those not counted at which it is
  blocked. -/
  within : ∀ actions, bound ≤ stepsTaken client begun actions →
    ∃ first rest, actions = first ++ rest ∧ stepsTaken client begun first ≤ bound ∧
      ((begun.run first).phase client).returned = true
  /-- It is blocked by one other client at a time, which holds the mutex of the observers, is not
  blocked itself and gives the mutex back in its next step. -/
  blocked : ∀ actions, (begun.run actions).blocked client = true →
    ∃ other, other ≠ client ∧ (begun.run actions).notifier = some other ∧
      (begun.run actions).blocked other = false ∧
      ((begun.run actions).step (.advance other)).notifier = none
  /-- At any time, one step of another client at most and its own steps bring it to its end. -/
  deadlockFree : ∀ actions, (∀ call env, .begin client call env ∉ actions) →
    ∃ others : List (Action ι), others.length ≤ 1 ∧
      ((begun.run (actions ++ others ++ List.replicate bound (.advance client))).phase
        client).returned = true

/-- A call returns before it has taken thirteen steps more than it has transactions, unless it is
blocked at the mutex of the observers; the client that blocks it is about to give the mutex back. -/
theorem calls_return (db : Database) (before : List (Action ι)) (client : ι) (call : Call)
    (env : Env) (hidle : (((start db).run before).phase client).returned = true) :
    Answered (((start db).run before).step (.begin client call env)) client
      (13 + call.transactions.length) := by
  have hnotifying := ((notifying_start db : (start db : Writers ι).Notifying).run before).step
    (.begin client call env)
  have hbegun : (((start db).run before).step (.begin client call env)).phase client =
      call.enter env := by
    rw [Writers.step]
    cases hphase : ((start db).run before).phase client with
    | done result => exact Function.update_self ..
    | _ =>
        rw [hphase] at hidle
        cases hidle
  have hleft := call.stepsLeft_enter env
  rw [← hbegun] at hleft
  refine ⟨fun actions hsteps => ?_, fun actions hblocked => ?_, fun actions hbegin => ?_⟩
  · obtain ⟨first, rest, hsplit, hcount, hdone⟩ := returns_within (hleft.trans hsteps)
    exact ⟨first, rest, hsplit, hcount.trans hleft, hdone⟩
  · exact (hnotifying.run actions).of_blocked hblocked
  · have hmore := stepsLeft_run (by omega) hleft hbegin
    obtain ⟨others, hlength, hdone⟩ := (hnotifying.run actions).brought_to_end hmore
    refine ⟨others, hlength, ?_⟩
    rw [List.append_assoc, run_append]
    exact hdone

end Writers

end Phases

open Sample

/-- A single transaction is begun while another client registers an observer. -/
theorem Writers.calls_return_document :
    Answered (((start Database.genesis : Writers Bool).run
      [.register false none, .advance false]).step (.begin true (.transact document) (working 2)))
      true 14 :=
  calls_return Database.genesis [.register false none, .advance false] true (.transact document)
    (working 2) rfl

end Ferratomic
