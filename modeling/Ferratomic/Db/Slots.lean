import Ferratomic.Db.Linearize
import Ferratomic.Lib.Census

/-!
# The write limiter

`WriteLimiter` counts the calls in progress: `try_acquire` increments the counter, takes the
increment back when the counter had reached the limit, and else returns a guard that decrements it
when the call has released the write lock. The main theorem, `slots_accounted`, says that the
counter is right in every interleaving.
-/

namespace Ferratomic

open Lib

section Phases

variable [Blake3]

/-- The call has a slot of the limiter: it holds a write guard. -/
def Phase.guarded : Phase → Bool
  | slotted _ _ => true
  | releasing _ => true
  | phase => phase.critical

/-- The limiter has turned the call away, which has yet to take its increment back. -/
def Phase.refused : Phase → Bool
  | overLimit => true
  | _ => false

/-- The call is over. -/
def Phase.returned : Phase → Bool
  | done _ => true
  | _ => false

/-- A call under the lock has a slot. -/
theorem Phase.guarded_of_critical {phase : Phase} (h : phase.critical = true) :
    phase.guarded = true := by
  cases phase with
  | slotted => rfl
  | releasing => rfl
  | _ => exact h

/-- A call that has a slot was not turned away. -/
theorem Phase.not_refused_of_guarded {phase : Phase} (h : phase.guarded = true) :
    ¬phase.refused = true := by
  cases phase with
  | overLimit => cases h
  | _ => exact Bool.false_ne_true

/-- A call that is over has no slot. -/
theorem Phase.not_guarded_of_returned {phase : Phase} (h : phase.returned = true) :
    ¬phase.guarded = true := by
  cases phase with
  | done => exact Bool.false_ne_true
  | _ => cases h

/-- A call begins without a slot. -/
theorem Call.enter_counted (call : Call) (env : Env) :
    (call.enter env).guarded = false ∧ (call.enter env).refused = false := by
  fun_cases Call.enter env call with
  | case1 => exact ⟨rfl, rfl⟩
  | case2 => exact ⟨rfl, rfl⟩

/-- Behind the release of the slot the call has none. -/
theorem Phase.released_counted (result : Except FerraError (List TxReceipt)) :
    (Phase.released result).guarded = false ∧ (Phase.released result).refused = false := by
  fun_cases Phase.released result with
  | case1 => exact ⟨rfl, rfl⟩
  | case2 => exact ⟨rfl, rfl⟩

variable [Bincode]

namespace Writers

variable {ι : Type} [DecidableEq ι]

/-- The slots in use: the calls that hold one and the calls that were turned away are counted, and
no more hold one than the limit allows. -/
structure Slots (state : Writers ι) (holding refused : Nat) : Prop where
  held : Census (fun phase : Phase => phase.guarded = true) state.phase holding
  turnedAway : Census (fun phase : Phase => phase.refused = true) state.phase refused
  active : state.active = holding + refused
  bound : holding ≤ maxConcurrentWrites

omit [Bincode] [DecidableEq ι] in
/-- No call holds a slot at the start. -/
theorem slots_start (db : Database) : Slots (start db : Writers ι) 0 0 :=
  ⟨.none fun _ => Bool.false_ne_true, .none fun _ => Bool.false_ne_true, rfl, Nat.zero_le _⟩

omit [Bincode] in
/-- A step by which a call neither takes nor returns a slot. -/
theorem Slots.stay {state next : Writers ι} {holding refused : Nat}
    (h : Slots state holding refused) {client : ι} {later : Phase}
    (hphase : next.phase = Function.update state.phase client later)
    (hactive : next.active = state.active)
    (hguarded : later.guarded = (state.phase client).guarded)
    (hrefused : later.refused = (state.phase client).refused) : Slots next holding refused := by
  refine ⟨?_, ?_, hactive.trans h.active, h.bound⟩
  · rw [hphase]
    exact h.held.stay (by rw [hguarded])
  · rw [hphase]
    exact h.turnedAway.stay (by rw [hrefused])

omit [Bincode] in
/-- `try_acquire`: the counter is incremented, and the call gets a slot if it was below the limit.
-/
theorem Slots.acquire {state next : Writers ι} {holding refused : Nat}
    (h : Slots state holding refused) {client : ι} {call : Call} {env : Env}
    (hentered : state.phase client = .entered call env)
    (hphase : next.phase = Function.update state.phase client
      (if maxConcurrentWrites ≤ state.active then .overLimit else .slotted call env))
    (hactive : next.active = state.active + 1) :
    ∃ holding refused, Slots next holding refused := by
  have hguarded : ¬(state.phase client).guarded = true := by
    rw [hentered]
    exact Bool.false_ne_true
  have hrefused : ¬(state.phase client).refused = true := by
    rw [hentered]
    exact Bool.false_ne_true
  have hcount := h.active
  by_cases hover : maxConcurrentWrites ≤ state.active
  · rw [if_pos hover] at hphase
    refine ⟨holding, refused + 1, ?_, ?_, ?_, h.bound⟩
    · rw [hphase]
      exact h.held.stay ⟨fun hkind => absurd hkind Bool.false_ne_true,
        fun hkind => absurd hkind hguarded⟩
    · rw [hphase]
      exact h.turnedAway.enter hrefused rfl
    · omega
  · rw [if_neg hover] at hphase
    refine ⟨holding + 1, refused, ?_, ?_, ?_, ?_⟩
    · rw [hphase]
      exact h.held.enter hguarded rfl
    · rw [hphase]
      exact h.turnedAway.stay ⟨fun hkind => absurd hkind Bool.false_ne_true,
        fun hkind => absurd hkind hrefused⟩
    · omega
    · omega

omit [Bincode] in
/-- A call that was turned away takes its increment back. -/
theorem Slots.retract {state next : Writers ι} {holding refused : Nat}
    (h : Slots state holding refused) {client : ι} {later : Phase}
    (hover : state.phase client = .overLimit)
    (hphase : next.phase = Function.update state.phase client later)
    (hlater : later.returned = true) (hactive : next.active = state.active - 1) :
    ∃ holding refused, Slots next holding refused := by
  have hcounted : (state.phase client).refused = true := by
    rw [hover]
    rfl
  have hcount := h.active
  have hlaterRefused : ¬later.refused = true := by
    cases later with
    | done => exact Bool.false_ne_true
    | _ => cases hlater
  obtain ⟨others, rfl⟩ := Nat.exists_eq_succ_of_ne_zero (h.turnedAway.pos hcounted).ne'
  refine ⟨holding, others, ?_, ?_, by omega, h.bound⟩
  · rw [hphase]
    refine h.held.stay ⟨fun hkind => ?_, fun hkind => ?_⟩
    · exact absurd hkind (Phase.not_guarded_of_returned hlater)
    · rw [hover] at hkind
      cases hkind
  · rw [hphase]
    exact h.turnedAway.leave hcounted hlaterRefused

omit [Bincode] in
/-- The guard of a call is dropped. -/
theorem Slots.drop {state next : Writers ι} {holding refused : Nat}
    (h : Slots state holding refused) {client : ι} {later : Phase}
    (hheld : (state.phase client).guarded = true)
    (hphase : next.phase = Function.update state.phase client later)
    (hguarded : later.guarded = false) (hrefused : later.refused = false)
    (hactive : next.active = state.active - 1) :
    ∃ holding refused, Slots next holding refused := by
  have hcount := h.active
  have hbound := h.bound
  obtain ⟨others, rfl⟩ := Nat.exists_eq_succ_of_ne_zero (h.held.pos hheld).ne'
  refine ⟨others, refused, ?_, ?_, by omega, by omega⟩
  · rw [hphase]
    exact h.held.leave hheld (by rw [hguarded]; exact Bool.false_ne_true)
  · rw [hphase]
    exact h.turnedAway.stay ⟨fun hkind => absurd (hrefused.symm.trans hkind) Bool.false_ne_true,
      fun hkind => absurd hkind (Phase.not_refused_of_guarded hheld)⟩

/-- A step keeps the count. -/
theorem Slots.step {state : Writers ι} {holding refused : Nat} (h : Slots state holding refused)
    (action : Action ι) : ∃ holding refused, Slots (state.step action) holding refused := by
  cases action with
  | begin client call env =>
      rcases step_begin state client call env with hstep | hstep
      · rw [hstep]
        exact ⟨holding, refused, h⟩
      · simp only [Writers.step] at hstep ⊢
        cases hphase : state.phase client with
        | done result =>
            obtain ⟨hguarded, hrefused⟩ := call.enter_counted env
            refine ⟨holding, refused, h.stay rfl rfl ?_ ?_⟩
            · rw [hguarded, hphase]
              rfl
            · rw [hrefused, hphase]
              rfl
        | _ => exact ⟨holding, refused, h⟩
  | register client filter =>
      simp only [Writers.step]
      cases hphase : state.phase client with
      | done result =>
          exact ⟨holding, refused, h.stay rfl rfl (by rw [hphase]; rfl) (by rw [hphase]; rfl)⟩
      | _ => exact ⟨holding, refused, h⟩
  | advance client =>
      simp only [Writers.step]
      cases hphase : state.phase client with
      | done result => exact ⟨holding, refused, h⟩
      | entered call env => exact h.acquire hphase rfl rfl
      | overLimit => exact h.retract hphase rfl rfl rfl
      | slotted call env =>
          cases state.owner with
          | none =>
              exact ⟨holding, refused, h.stay rfl rfl (by rw [hphase]; rfl) (by rw [hphase]; rfl)⟩
          | some other =>
              exact ⟨holding, refused, h.stay rfl rfl (by rw [hphase]; rfl) (by rw [hphase]; rfl)⟩
      | unlocking result =>
          exact ⟨holding, refused, h.stay rfl rfl (by rw [hphase]; rfl) (by rw [hphase]; rfl)⟩
      | releasing result =>
          obtain ⟨hguarded, hrefused⟩ := Phase.released_counted result
          exact h.drop (by rw [hphase]; rfl) rfl hguarded hrefused rfl
      | notifying receipts =>
          exact ⟨holding, refused, h.stay rfl rfl (by rw [hphase]; rfl) (by rw [hphase]; rfl)⟩
      | waiting access =>
          cases state.notifier with
          | none =>
              exact ⟨holding, refused, h.stay rfl rfl (by rw [hphase]; rfl) (by rw [hphase]; rfl)⟩
          | some other => exact ⟨holding, refused, h⟩
      | delivering access =>
          exact ⟨holding, refused, h.stay rfl rfl (by rw [hphase]; rfl) (by rw [hphase]; rfl)⟩
      | _ =>
          have hcritical : (state.phase client).critical = true := by
            rw [hphase]
            rfl
          have hlater := Phase.critical_advance hcritical state.db
          rw [hphase] at hcritical hlater
          refine ⟨holding, refused, h.stay rfl rfl ?_ ?_⟩
          · rw [Phase.guarded_of_critical hlater, hphase]
            rfl
          · have hnot := Phase.not_refused_of_guarded (Phase.guarded_of_critical hlater)
            rw [Bool.eq_false_iff.mpr hnot, hphase]
            rfl

/-- A run keeps the count. -/
theorem Slots.run {state : Writers ι} {holding refused : Nat} (h : Slots state holding refused)
    (actions : List (Action ι)) : ∃ holding refused, Slots (state.run actions) holding refused := by
  induction actions generalizing state holding refused with
  | nil => exact ⟨holding, refused, h⟩
  | cons action rest ih =>
      obtain ⟨holding', refused', hstep⟩ := h.step action
      exact ih hstep

omit [Bincode] in
/-- A call that asks for a slot finds all the others counted at most. -/
theorem Slots.lt_card [Fintype ι] {state : Writers ι} {holding refused : Nat}
    (h : Slots state holding refused) {client : ι} {call : Call} {env : Env}
    (hentered : state.phase client = .entered call env) : state.active < Fintype.card ι := by
  have hboth := h.held.add h.turnedAway fun other => Phase.not_refused_of_guarded
  have hnot : ¬((state.phase client).guarded = true ∨ (state.phase client).refused = true) := by
    rw [hentered]
    exact fun hkind => hkind.elim Bool.false_ne_true Bool.false_ne_true
  have hafter : Phase.overLimit.guarded = true ∨ Phase.overLimit.refused = true := .inr rfl
  have hmore := (hboth.enter hnot hafter).le_card
  have hcount := h.active
  omega

/-- A call is turned away by `try_acquire` only, when the counter has reached the limit. -/
theorem refused_of_step {state : Writers ι} {action : Action ι} {client : ι}
    (h : ((state.step action).phase client).refused = true) :
    (state.phase client).refused = true ∨
      ∃ call env, state.phase client = .entered call env ∧ maxConcurrentWrites ≤ state.active := by
  cases action with
  | begin other call env =>
      rcases step_begin state other call env with hstep | hstep
      · rw [hstep] at h
        exact .inl h
      · rw [hstep.phase] at h
        by_cases hother : client = other
        · subst hother
          rw [Function.update_self, (call.enter_counted env).2] at h
          cases h
        · rw [Function.update_of_ne hother] at h
          exact .inl h
  | register other filter =>
      rcases step_register state other filter with hstep | hstep
      · rw [hstep] at h
        exact .inl h
      · rw [hstep.phase] at h
        by_cases hother : client = other
        · subst hother
          rw [Function.update_self] at h
          cases h
        · rw [Function.update_of_ne hother] at h
          exact .inl h
  | advance other =>
      by_cases hother : client = other
      · subst hother
        rw [Writers.step] at h
        cases hphase : state.phase client with
        | entered call env =>
            simp only [hphase, Function.update_self] at h
            split at h
            case isTrue hfull => exact .inr ⟨call, env, rfl, hfull⟩
            case isFalse => cases h
        | slotted call env =>
            simp only [hphase] at h
            split at h <;> simp [Phase.refused] at h
        | done result => simp [hphase, Phase.refused] at h
        | overLimit => exact .inl rfl
        | unlocking result => simp [hphase, Phase.refused] at h
        | releasing result =>
            simp [hphase, (Phase.released_counted result).2] at h
        | notifying receipts => simp [hphase, Phase.refused] at h
        | waiting access =>
            simp only [hphase] at h
            split at h
            · simp [Phase.refused] at h
            · rw [hphase] at h
              cases h
        | delivering access => simp [hphase, Phase.refused] at h
        | _ =>
            -- a call under the lock stays under it
            have hcritical : (state.phase client).critical = true := by
              rw [hphase]
              rfl
            have hstays := Phase.critical_advance hcritical state.db
            rw [hphase] at hstays
            simp only [hphase, Function.update_self] at h
            exact absurd h (Phase.not_refused_of_guarded (Phase.guarded_of_critical hstays))
      · rw [phase_step_of_ne hother] at h
        exact .inl h

/-- With no more clients than slots, no step turns a call away. -/
theorem Slots.step_not_refused [Fintype ι] (hcard : Fintype.card ι ≤ maxConcurrentWrites)
    {state : Writers ι} {holding : Nat} (h : Slots state holding 0) (action : Action ι) :
    ∃ holding, Slots (state.step action) holding 0 := by
  obtain ⟨holding', refused', hnext⟩ := h.step action
  have hlater : ∀ client, ¬((state.step action).phase client).refused = true := by
    intro client hrefused
    rcases refused_of_step hrefused with hbefore | ⟨call, env, hentered, hfull⟩
    · exact h.turnedAway.eq_zero_iff.mp rfl client hbefore
    · have hroom := h.lt_card hentered
      omega
  have hzero : refused' = 0 := hnext.turnedAway.eq_zero_iff.mpr hlater
  exact ⟨holding', hzero ▸ hnext⟩

/-- So it is in a run. -/
theorem Slots.run_not_refused [Fintype ι] (hcard : Fintype.card ι ≤ maxConcurrentWrites)
    {state : Writers ι} {holding : Nat} (h : Slots state holding 0) (actions : List (Action ι)) :
    ∃ holding, Slots (state.run actions) holding 0 := by
  induction actions generalizing state holding with
  | nil => exact ⟨holding, h⟩
  | cons action rest ih =>
      obtain ⟨holding', hstep⟩ := h.step_not_refused hcard action
      exact ih hstep

/-- What the counter of the limiter says in a state. -/
structure Accounted (state : Writers ι) : Prop where
  /-- The counter is the number of calls that hold a slot and of calls that were turned away, and at
  most as many as the limit allows hold one. -/
  slots : ∃ holding refused, Slots state holding refused
  /-- The owner of the write lock, the only client under the lock, holds a slot. -/
  owner : ∀ client, state.owner = some client →
    (state.phase client).guarded = true ∧
      ∀ other, (state.phase other).critical = true → other = client
  /-- With no more clients than slots, no call is turned away. -/
  spacious : ∀ [Fintype ι], Fintype.card ι ≤ maxConcurrentWrites →
    ∀ client, ¬(state.phase client).refused = true
  /-- When all calls have returned, no slot is in use and the lock is free. -/
  idle : (∀ client, (state.phase client).returned = true) →
    state.active = 0 ∧ state.owner = none

/-- The counter of the limiter is right whatever the order of the steps of the clients. -/
theorem slots_accounted (db : Database) (actions : List (Action ι)) :
    Accounted ((start db : Writers ι).run actions) := by
  obtain ⟨txIds, hran⟩ := (inv_start db : Inv [] (start db : Writers ι)).run actions
  have hlock := hran.inv.lock
  have hslots := (slots_start db : Slots (start db : Writers ι) 0 0).run actions
  refine ⟨hslots, fun client howner => ?_, fun hcard => ?_, fun hreturned => ?_⟩
  · refine ⟨Phase.guarded_of_critical ((hlock client).mpr howner), fun other hcritical => ?_⟩
    have hother := (hlock other).mp hcritical
    rw [howner] at hother
    exact (Option.some.inj hother).symm
  · obtain ⟨holding, hquiet⟩ :=
      (slots_start db : Slots (start db : Writers ι) 0 0).run_not_refused hcard actions
    exact hquiet.turnedAway.eq_zero_iff.mp rfl
  · obtain ⟨holding, refused, hcounted⟩ := hslots
    have hholding : holding = 0 :=
      hcounted.held.eq_zero_iff.mpr fun client => Phase.not_guarded_of_returned (hreturned client)
    have hrefused : refused = 0 := by
      refine hcounted.turnedAway.eq_zero_iff.mpr fun client hkind => ?_
      have hdone := hreturned client
      cases hphase : ((start db : Writers ι).run actions).phase client with
      | overLimit =>
          rw [hphase] at hdone
          cases hdone
      | _ =>
          rw [hphase] at hkind
          cases hkind
    refine ⟨?_, ?_⟩
    · rw [hcounted.active, hholding, hrefused]
    · refine Option.eq_none_iff_forall_ne_some.mpr fun client howner => ?_
      have hcritical := (hlock client).mpr howner
      exact Phase.not_guarded_of_returned (hreturned client)
        (Phase.guarded_of_critical hcritical)

end Writers

end Phases

end Ferratomic
