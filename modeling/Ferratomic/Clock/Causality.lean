import Ferratomic.Clock

/-!
# Causality of hybrid logical clocks

A run of any number of clocks is a sequence of events, each a tick or a receipt at one of them,
in any interleaving and with any wall clock readings. An event happens before another when it
comes first at the same clock, or when the other receives the identifier that it issued. The
main theorem, `causal_order`, says that identifiers follow this order and that no two ticks
issue the same one.
-/

namespace Ferratomic.Clock

variable {ι : Type}

/-- An event of a run: a tick with the wall clock readings it takes, or the receipt of an
identifier with one reading. -/
inductive Event (ι : Type) where
  | tick (owner : ι) (now : Nat → UInt64)
  | receive (owner : ι) (now : UInt64) (remote : TxId)

/-- The clock at which an event takes place. -/
def Event.owner : Event ι → ι
  | tick owner _ => owner
  | receive owner _ _ => owner

/-- What an event does to its clock. -/
def Event.act : Event ι → HybridClock → HybridClock
  | tick _ now, clock => (clock.tick now).2
  | receive _ now remote, clock => clock.receive now remote

/-- The identifier that an event issues at its clock, if it is a successful tick. -/
def Event.issues : Event ι → HybridClock → Option TxId
  | tick _ now, clock => (clock.tick now).1.toOption
  | receive _ _ _, _ => none

/-- The identifier that an event receives. -/
def Event.receives : Event ι → Option TxId
  | tick _ _ => none
  | receive _ _ remote => some remote

variable [DecidableEq ι]

/-- One event changes the clock it takes place at. -/
def step (clocks : ι → HybridClock) (event : Event ι) : ι → HybridClock :=
  Function.update clocks event.owner (event.act (clocks event.owner))

/-- The clocks after the first events of a run. -/
def clocksAt (clocks : ι → HybridClock) (events : List (Event ι)) (count : Nat) :
    ι → HybridClock :=
  (events.take count).foldl step clocks

/-- The identifier that the event at an index of the run issues. -/
def issuedAt (clocks : ι → HybridClock) (events : List (Event ι)) (index : Nat) : Option TxId :=
  events[index]?.bind fun event => event.issues (clocksAt clocks events index event.owner)

/-- The event at one index directly precedes the event at another: at the same clock, or because
the second receives what the first issued. -/
def Precedes (clocks : ι → HybridClock) (events : List (Event ι)) (first second : Nat) : Prop :=
  first < second ∧ ∃ a b, events[first]? = some a ∧ events[second]? = some b ∧
    (a.owner = b.owner ∨ ∃ tx, issuedAt clocks events first = some tx ∧ b.receives = some tx)

/-- The happens-before order of a run. -/
def HappensBefore (clocks : ι → HybridClock) (events : List (Event ι)) : Nat → Nat → Prop :=
  Relation.TransGen (Precedes clocks events)

section Run

variable {clocks : ι → HybridClock} {events : List (Event ι)}

/-- The clocks after an event are those before it, stepped. -/
theorem clocksAt_succ {index : Nat} {event : Event ι} (h : events[index]? = some event) :
    clocksAt clocks events (index + 1) = step (clocksAt clocks events index) event := by
  rw [clocksAt, List.take_add_one, h, Option.toList_some, List.foldl_append]
  rfl

/-- What an event does is seen at its clock afterwards. -/
theorem clocksAt_succ_owner {index : Nat} {event : Event ι} (h : events[index]? = some event) :
    clocksAt clocks events (index + 1) event.owner =
      event.act (clocksAt clocks events index event.owner) := by
  rw [clocksAt_succ h, step, Function.update_self]

/-- What every event keeps at its clock, the run keeps at every clock. -/
theorem clocksAt_induction {P : HybridClock → Prop}
    (hact : ∀ (event : Event ι) clock, P clock → P (event.act clock)) {owner : ι}
    {early late : Nat} (hle : early ≤ late) (h : P (clocksAt clocks events early owner)) :
    P (clocksAt clocks events late owner) := by
  induction late, hle using Nat.le_induction with
  | base => exact h
  | succ late _ ih =>
      cases hevent : events[late]? with
      | none =>
          rw [clocksAt, List.take_add_one, hevent, Option.toList_none, List.append_nil]
          exact ih
      | some event =>
          rw [clocksAt_succ hevent, step]
          by_cases howner : owner = event.owner
          · subst howner
            rw [Function.update_self]
            exact hact event _ ih
          · rw [Function.update_of_ne howner]
            exact ih

/-- What a clock has reached stays so over the run. -/
theorem covers_mono {owner : ι} {tx : TxId} {early late : Nat} (hle : early ≤ late)
    (h : (clocksAt clocks events early owner).Covers tx) :
    (clocksAt clocks events late owner).Covers tx := by
  refine clocksAt_induction (P := fun clock => clock.Covers tx)
    (fun event clock hcovers => ?_) hle h
  cases event with
  | tick owner now => exact hcovers.tick now
  | receive owner now remote => exact hcovers.receive now remote

/-- The nodes of the clocks do not change. -/
theorem node_clocksAt (owner : ι) (count : Nat) :
    (clocksAt clocks events count owner).node = (clocks owner).node := by
  refine clocksAt_induction (P := fun clock => clock.node = (clocks owner).node)
    (fun event clock hnode => ?_) (Nat.zero_le count) rfl
  cases event with
  | receive => exact hnode
  | tick _ now =>
      show (clock.tick now).2.node = _
      cases hresult : (clock.tick now).1 with
      | error e => rw [HybridClock.tick_error hresult, hnode]
      | ok tx => rw [(HybridClock.tick_ok hresult).1, hnode]

/-- An identifier is issued by a tick that succeeds. -/
theorem issuedAt_eq_some {index : Nat} {tx : TxId} (h : issuedAt clocks events index = some tx) :
    ∃ owner now, events[index]? = some (.tick owner now) ∧
      ((clocksAt clocks events index owner).tick now).1 = .ok tx := by
  obtain ⟨event, hevent, hissues⟩ := Option.bind_eq_some_iff.mp h
  cases event with
  | receive => cases hissues
  | tick owner now =>
      refine ⟨owner, now, hevent, ?_⟩
      simp only [Event.issues, Event.owner] at hissues
      cases hresult : ((clocksAt clocks events index owner).tick now).1 with
      | error e =>
          rw [hresult] at hissues
          cases hissues
      | ok issued =>
          rw [hresult] at hissues
          cases hissues
          rfl

/-- After a tick its clock has reached what it issued. -/
theorem covers_issued {index : Nat} {tx : TxId} {event : Event ι}
    (hevent : events[index]? = some event) (h : issuedAt clocks events index = some tx) :
    (clocksAt clocks events (index + 1) event.owner).Covers tx := by
  obtain ⟨owner, now, htick, hissued⟩ := issuedAt_eq_some h
  obtain rfl : .tick owner now = event := Option.some.inj (htick.symm.trans hevent)
  rw [clocksAt_succ_owner htick]
  exact HybridClock.covers_tick hissued

/-- After a receipt its clock has reached what it received. -/
theorem covers_received {index : Nat} {tx : TxId} {event : Event ι}
    (hevent : events[index]? = some event) (h : event.receives = some tx) :
    (clocksAt clocks events (index + 1) event.owner).Covers tx := by
  rw [clocksAt_succ_owner hevent]
  cases event with
  | tick => cases h
  | receive owner now remote =>
      cases h
      exact HybridClock.covers_receive _ now tx

/-- What the clock of a later tick had reached is below what the tick issues. -/
theorem lt_issued {early late : Nat} (hlt : early < late) {event : Event ι}
    (hevent : events[late]? = some event) {tx next : TxId}
    (hcovers : (clocksAt clocks events (early + 1) event.owner).Covers tx)
    (h : issuedAt clocks events late = some next) : tx < next := by
  obtain ⟨owner, now, htick, hissued⟩ := issuedAt_eq_some h
  obtain rfl : .tick owner now = event := Option.some.inj (htick.symm.trans hevent)
  exact (covers_mono hlt hcovers).lt_tick hissued

/-- An event that an issued identifier happens before has reached it afterwards, and issues only
greater ones. -/
theorem HappensBefore.covers {first second : Nat} (h : HappensBefore clocks events first second)
    {tx : TxId} (hissued : issuedAt clocks events first = some tx) :
    (∀ event, events[second]? = some event →
      (clocksAt clocks events (second + 1) event.owner).Covers tx) ∧
      ∀ next, issuedAt clocks events second = some next → tx < next := by
  -- one edge carries what its source has reached to its target
  have hedge {middle target : Nat} (hprecedes : Precedes clocks events middle target)
      (hsame : ∀ event, events[middle]? = some event →
        (clocksAt clocks events (middle + 1) event.owner).Covers tx)
      (hsent : ∀ sent, issuedAt clocks events middle = some sent → sent = tx ∨ tx < sent) :
      (∀ event, events[target]? = some event →
        (clocksAt clocks events (target + 1) event.owner).Covers tx) ∧
        ∀ next, issuedAt clocks events target = some next → tx < next := by
    obtain ⟨hlt, a, b, ha, hb, howner | ⟨sent, hsentAt, hreceives⟩⟩ := hprecedes
    · have hbefore := hsame a ha
      rw [howner] at hbefore
      refine ⟨fun event hevent => ?_, fun next hnext => lt_issued hlt hb hbefore hnext⟩
      obtain rfl : b = event := Option.some.inj (hb.symm.trans hevent)
      exact covers_mono (by omega) hbefore
    · have hreached : (clocksAt clocks events (target + 1) b.owner).Covers sent :=
        covers_received hb hreceives
      refine ⟨fun event hevent => ?_, fun next hnext => ?_⟩
      · obtain rfl : b = event := Option.some.inj (hb.symm.trans hevent)
        rcases hsent sent hsentAt with rfl | hless
        · exact hreached
        · exact hreached.of_lt hless
      · -- a receipt issues nothing
        obtain ⟨owner, now, htick, -⟩ := issuedAt_eq_some hnext
        rw [Option.some.inj (hb.symm.trans htick)] at hreceives
        cases hreceives
  induction h with
  | single hprecedes =>
      refine hedge hprecedes (fun event hevent => covers_issued hevent hissued) fun sent hsent => ?_
      exact .inl (Option.some.inj (hsent.symm.trans hissued))
  | tail _ hprecedes ih => exact hedge hprecedes ih.1 fun sent hsent => .inr (ih.2 sent hsent)

/-- In every run of clocks with distinct nodes: an identifier that a tick issues is greater than
all that its clock issued or received before; identifiers follow the happens-before order; and
no two ticks issue the same one. -/
theorem causal_order (hnodes : Function.Injective fun owner => (clocks owner).node)
    (events : List (Event ι)) :
    (∀ early late a b tx next, early < late → events[early]? = some a → events[late]? = some b →
      a.owner = b.owner → issuedAt clocks events late = some next →
      (issuedAt clocks events early = some tx ∨ a.receives = some tx) → tx < next) ∧
      (∀ first second tx next, HappensBefore clocks events first second →
        issuedAt clocks events first = some tx → issuedAt clocks events second = some next →
        tx < next) ∧
      ∀ first second tx, issuedAt clocks events first = some tx →
        issuedAt clocks events second = some tx → first = second := by
  have hlocal : ∀ early late a b tx next, early < late → events[early]? = some a →
      events[late]? = some b → a.owner = b.owner → issuedAt clocks events late = some next →
      (issuedAt clocks events early = some tx ∨ a.receives = some tx) → tx < next := by
    intro early late a b tx next hlt ha hb howner hnext htx
    have hreached : (clocksAt clocks events (early + 1) a.owner).Covers tx := by
      rcases htx with hissued | hreceived
      · exact covers_issued ha hissued
      · exact covers_received ha hreceived
    rw [howner] at hreached
    exact lt_issued hlt hb hreached hnext
  refine ⟨hlocal, fun first second tx next hbefore hfirst hsecond => ?_, ?_⟩
  · exact (hbefore.covers hfirst).2 next hsecond
  · intro first second tx hfirst hsecond
    obtain ⟨a, nowA, htickA, hokA⟩ := issuedAt_eq_some hfirst
    obtain ⟨b, nowB, htickB, hokB⟩ := issuedAt_eq_some hsecond
    -- one identifier names one node, and so one owner, whose identifiers ascend
    have hnode : (clocks a).node = (clocks b).node := by
      rw [← node_clocksAt a first, ← node_clocksAt b second,
        ← (HybridClock.tick_ok hokA).2.1, ← (HybridClock.tick_ok hokB).2.1]
    have howner : a = b := hnodes hnode
    rcases Nat.lt_trichotomy first second with hlt | heq | hgt
    · exact absurd (hlocal first second _ _ tx tx hlt htickA htickB howner hsecond
        (.inl hfirst)) (lt_irrefl tx)
    · exact heq
    · exact absurd (hlocal second first _ _ tx tx hgt htickB htickA howner.symm hfirst
        (.inl hsecond)) (lt_irrefl tx)

end Run

namespace Sample

/-- Two clocks. -/
def pair : Bool → HybridClock
  | true => .new NodeId.zero
  | false => .new ⟨List.replicate 16 1, List.length_replicate⟩

/-- One clock ticks, the other receives the identifier and ticks with a wall clock behind. -/
def relay : List (Event Bool) :=
  [.tick true fun _ => 5, .receive false 3 ⟨5, 0, NodeId.zero⟩, .tick false fun _ => 3]

/-- In the sample the first tick happens before the last. -/
theorem happensBefore_relay : HappensBefore pair relay 0 2 := by
  have hsent : Precedes pair relay 0 1 :=
    ⟨Nat.zero_lt_one, _, _, rfl, rfl, .inr ⟨⟨5, 0, NodeId.zero⟩, rfl, rfl⟩⟩
  have hthen : Precedes pair relay 1 2 := ⟨Nat.lt_succ_self 1, _, _, rfl, rfl, .inl rfl⟩
  exact .tail (.single hsent) hthen

end Sample

open Sample

/-- The identifier of the relayed tick is the greater one although its wall clock is behind. -/
theorem causal_order_relay :
    issuedAt pair relay 0 = some ⟨5, 0, (pair true).node⟩ ∧
      issuedAt pair relay 2 = some ⟨5, 1, (pair false).node⟩ ∧
      (⟨5, 0, (pair true).node⟩ : TxId) < ⟨5, 1, (pair false).node⟩ := by
  have hnodes : Function.Injective fun owner => (pair owner).node := by
    intro a b h
    cases a <;> cases b <;> first | rfl | exact absurd h (by decide)
  refine ⟨rfl, rfl, ?_⟩
  exact (causal_order hnodes relay).2.1 0 2 _ _ happensBefore_relay rfl rfl

end Ferratomic.Clock
