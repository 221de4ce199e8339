import Ferratomic.Datom
import Ferratomic.Error

/-!
# The hybrid logical clock

A clock issues transaction identifiers. Its wall clock is a parameter of each tick: the readings
that the tick takes, in order. When the logical counter is exhausted the tick waits for the wall
clock to advance, for a bounded number of readings. The lemmas say what a clock has reached
(`Covers`): a tick issues an identifier beyond it, and neither a tick nor a receipt loses any.
-/

namespace Ferratomic

/-- `HybridClock`: the last physical time, the logical counter and the owner. -/
@[ext]
structure HybridClock where
  physical : UInt64
  logical : UInt32
  node : NodeId

/-- `MAX_BUSY_WAIT_RETRIES` -/
def maxBusyWaitRetries : Nat := 1000000

namespace HybridClock

/-- `new`: a clock that has issued nothing. -/
def new (node : NodeId) : HybridClock :=
  ⟨0, 0, node⟩

/-- The waiting loop of `tick`: the first of the given readings beyond the physical time. -/
def busyWait (physical : UInt64) (now : Nat → UInt64) : Nat → Nat → Option UInt64
  | 0, _ => none
  | retries + 1, reading =>
      if physical < now reading then some (now reading)
      else busyWait physical now retries (reading + 1)

/-- The error of an exhausted wait. -/
def logicalOverflow : FerraError :=
  .invariantViolation "INV-FERR-021"
    "HLC logical counter overflow: wall clock stuck after bounded retry (INV-FERR-021)"

/-- `tick`: advance the clock and issue an identifier. -/
def tick (clock : HybridClock) (now : Nat → UInt64) : Except FerraError TxId × HybridClock :=
  if clock.physical < now 0 then
    (.ok ⟨now 0, 0, clock.node⟩, { clock with physical := now 0, logical := 0 })
  else if clock.logical.toNat + 1 < 2 ^ 32 then
    (.ok ⟨clock.physical, clock.logical + 1, clock.node⟩,
      { clock with logical := clock.logical + 1 })
  else
    match busyWait clock.physical now maxBusyWaitRetries 1 with
    | some updated =>
        (.ok ⟨updated, 0, clock.node⟩, { clock with physical := updated, logical := 0 })
    | none => (.error logicalOverflow, clock)

/-- `receive`: merge a remote identifier into the clock; `now` is the wall clock reading. -/
def receive (clock : HybridClock) (now : UInt64) (remote : TxId) : HybridClock :=
  let physical := max (max now clock.physical) remote.physical
  let logical :=
    if physical = clock.physical ∧ physical = remote.physical then
      max clock.logical remote.logical
    else if physical = clock.physical then clock.logical
    else if physical = remote.physical then remote.logical
    else 0
  { clock with physical := physical, logical := logical }

end HybridClock

/-- Identifiers are ordered by time, then by counter, then by node. -/
theorem TxId.lt_iff {a b : TxId} :
    a < b ↔ a.physical < b.physical ∨ a.physical = b.physical ∧
      (a.logical < b.logical ∨ a.logical = b.logical ∧ a.node < b.node) := by
  show a.sortKey < b.sortKey ↔ _
  simp only [TxId.sortKey, Prod.Lex.toLex_lt_toLex]

/-- The clock has reached an identifier: its next one will be greater. -/
def HybridClock.Covers (clock : HybridClock) (tx : TxId) : Prop :=
  tx.physical < clock.physical ∨ tx.physical = clock.physical ∧ tx.logical ≤ clock.logical

namespace HybridClock

variable {clock : HybridClock} {tx remote : TxId}

/-- A busy wait that ends has seen a later time. -/
theorem busyWait_lt {physical : UInt64} {now : Nat → UInt64} {retries reading : Nat}
    {updated : UInt64} (h : busyWait physical now retries reading = some updated) :
    physical < updated := by
  induction retries generalizing reading with
  | zero => cases h
  | succ retries ih =>
      rw [busyWait] at h
      split at h
      case isTrue hlt =>
          cases h
          exact hlt
      case isFalse => exact ih h

/-- A tick follows a wall clock that is ahead. -/
theorem tick_of_lt {now : Nat → UInt64} (h : clock.physical < now 0) :
    clock.tick now = (.ok ⟨now 0, 0, clock.node⟩, ⟨now 0, 0, clock.node⟩) := by
  rw [tick, if_pos h]

/-- What a successful tick does: the clock shows the new identifier, which is beyond all that it
had reached. -/
theorem tick_ok {now : Nat → UInt64} (h : (clock.tick now).1 = .ok tx) :
    (clock.tick now).2 = ⟨tx.physical, tx.logical, clock.node⟩ ∧ tx.node = clock.node ∧
      (clock.physical < tx.physical ∨
        clock.physical = tx.physical ∧ clock.logical < tx.logical) := by
  unfold tick at h ⊢
  split at h
  case isTrue hnow =>
      cases h
      rw [if_pos hnow]
      exact ⟨rfl, rfl, .inl hnow⟩
  case isFalse hnow =>
      rw [if_neg hnow]
      split at h
      case isTrue hlogical =>
          cases h
          rw [if_pos hlogical]
          refine ⟨rfl, rfl, .inr ⟨rfl, ?_⟩⟩
          rw [UInt32.lt_iff_toNat_lt, UInt32.toNat_add, UInt32.toNat_one,
            Nat.mod_eq_of_lt hlogical]
          omega
      case isFalse hlogical =>
          rw [if_neg hlogical]
          split at h
          case h_1 updated hwait =>
              cases h
              exact ⟨rfl, rfl, .inl (busyWait_lt hwait)⟩
          case h_2 => cases h

/-- A failed tick leaves the clock as it is. -/
theorem tick_error {now : Nat → UInt64} {e : FerraError} (h : (clock.tick now).1 = .error e) :
    (clock.tick now).2 = clock := by
  unfold tick at h ⊢
  split at h
  case isTrue => cases h
  case isFalse hnow =>
      rw [if_neg hnow]
      split at h
      case isTrue => cases h
      case isFalse hlogical =>
          rw [if_neg hlogical]
          split at h
          case h_1 => cases h
          case h_2 => rfl

/-- An identifier that the clock has reached is below the next one. -/
theorem Covers.lt_tick (hcovers : clock.Covers tx) {now : Nat → UInt64} {next : TxId}
    (h : (clock.tick now).1 = .ok next) : tx < next := by
  obtain ⟨-, -, hbeyond⟩ := tick_ok h
  rw [TxId.lt_iff]
  rcases hcovers with hphysical | ⟨hphysical, hlogical⟩
  · rcases hbeyond with hnext | ⟨hnext, -⟩
    · exact .inl (hphysical.trans hnext)
    · exact .inl (hnext ▸ hphysical)
  · rcases hbeyond with hnext | ⟨hnext, hstep⟩
    · exact .inl (hphysical ▸ hnext)
    · exact .inr ⟨hphysical.trans hnext, .inl (hlogical.trans_lt hstep)⟩

/-- The clock reaches the identifier it issues. -/
theorem covers_tick {now : Nat → UInt64} (h : (clock.tick now).1 = .ok tx) :
    (clock.tick now).2.Covers tx := by
  rw [(tick_ok h).1]
  exact .inr ⟨rfl, le_rfl⟩

/-- What a clock has reached stays so when the clock moves on. -/
theorem Covers.trans {later : HybridClock} (hcovers : clock.Covers tx)
    (h : clock.physical < later.physical ∨
      clock.physical = later.physical ∧ clock.logical ≤ later.logical) : later.Covers tx := by
  rcases hcovers with hphysical | ⟨hphysical, hlogical⟩
  · rcases h with hnext | ⟨hnext, -⟩
    · exact .inl (hphysical.trans hnext)
    · exact .inl (hnext ▸ hphysical)
  · rcases h with hnext | ⟨hnext, hkept⟩
    · exact .inl (hphysical ▸ hnext)
    · exact .inr ⟨hphysical.trans hnext, hlogical.trans hkept⟩

/-- What a clock has reached stays so over a tick. -/
theorem Covers.tick (hcovers : clock.Covers tx) (now : Nat → UInt64) :
    (clock.tick now).2.Covers tx := by
  cases hresult : (clock.tick now).1 with
  | error e =>
      rw [tick_error hresult]
      exact hcovers
  | ok next =>
      obtain ⟨hclock, -, hbeyond⟩ := tick_ok hresult
      rw [hclock]
      exact hcovers.trans (hbeyond.imp_right fun h => ⟨h.1, h.2.le⟩)

/-- A clock that has reached an identifier has reached every smaller one. -/
theorem Covers.of_lt (hcovers : clock.Covers remote) (h : tx < remote) : clock.Covers tx := by
  rcases TxId.lt_iff.mp h with hphysical | ⟨hphysical, hlogical⟩
  · rcases hcovers with hclock | ⟨hclock, -⟩
    · exact .inl (hphysical.trans hclock)
    · exact .inl (hclock ▸ hphysical)
  · have hle : tx.logical ≤ remote.logical := by
      rcases hlogical with hlt | ⟨heq, -⟩
      · exact hlt.le
      · exact heq.le
    rcases hcovers with hclock | ⟨hclock, hreached⟩
    · exact .inl (hphysical ▸ hclock)
    · exact .inr ⟨hphysical.trans hclock, hle.trans hreached⟩

/-- A receipt moves the physical time past both sides, and where it meets one of them the
logical counter is at least that side's. -/
theorem receive_spec (clock : HybridClock) (now : UInt64) (remote : TxId) :
    (remote.physical < (clock.receive now remote).physical ∨
      remote.physical = (clock.receive now remote).physical ∧
        remote.logical ≤ (clock.receive now remote).logical) ∧
      (clock.physical < (clock.receive now remote).physical ∨
        clock.physical = (clock.receive now remote).physical ∧
          clock.logical ≤ (clock.receive now remote).logical) := by
  simp only [receive]
  generalize hphysical : max (max now clock.physical) remote.physical = physical
  have hremote : remote.physical ≤ physical := hphysical ▸ le_max_right _ _
  have hclock : clock.physical ≤ physical :=
    hphysical ▸ (le_max_right _ _).trans (le_max_left _ _)
  by_cases hc : physical = clock.physical
  · by_cases hr : physical = remote.physical
    · rw [if_pos ⟨hc, hr⟩]
      exact ⟨.inr ⟨hr.symm, le_max_right _ _⟩, .inr ⟨hc.symm, le_max_left _ _⟩⟩
    · rw [if_neg fun h => hr h.2, if_pos hc]
      exact ⟨.inl (lt_of_le_of_ne hremote (Ne.symm hr)), .inr ⟨hc.symm, le_rfl⟩⟩
  · rw [if_neg fun h => hc h.1, if_neg hc]
    have hbeyond := lt_of_le_of_ne hclock (Ne.symm hc)
    by_cases hr : physical = remote.physical
    · rw [if_pos hr]
      exact ⟨.inr ⟨hr.symm, le_rfl⟩, .inl hbeyond⟩
    · exact ⟨.inl (lt_of_le_of_ne hremote (Ne.symm hr)), .inl hbeyond⟩

/-- The clock reaches the identifier it receives. -/
theorem covers_receive (clock : HybridClock) (now : UInt64) (remote : TxId) :
    (clock.receive now remote).Covers remote :=
  (receive_spec clock now remote).1

/-- What a clock has reached stays so over a receipt. -/
theorem Covers.receive (hcovers : clock.Covers tx) (now : UInt64) (remote : TxId) :
    (clock.receive now remote).Covers tx :=
  hcovers.trans (receive_spec clock now remote).2

end HybridClock

end Ferratomic
