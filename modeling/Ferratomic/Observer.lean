import Ferratomic.Filter
import Ferratomic.Store.Apply

/-!
# Observers

The broadcast of committed datoms to observers, with a bounded history of recent batches. An
observer that is one epoch behind gets the batch, one that is further behind a catch-up from the
history or, when the history does not reach back, from the whole store. An observer is modelled by
what it was passed. The main theorem, `deliver_spec`, says what a publication passes to an observer
whose last seen epoch is known.
-/

namespace Ferratomic

open Lib

/-- `DEFAULT_OBSERVER_BUFFER` -/
def defaultObserverBuffer : Nat := 1024

/-- A call of an observer: `on_commit` or `on_catchup`. -/
inductive Delivery where
  | onCommit (epoch : UInt64) (datoms : List Datom)
  | onCatchup (fromEpoch : UInt64) (datoms : List Datom)

/-- The datoms of a delivery. -/
def Delivery.datoms : Delivery → List Datom
  | onCommit _ datoms => datoms
  | onCatchup _ datoms => datoms

/-- `BroadcastEntry` -/
structure BroadcastEntry where
  epoch : UInt64
  datoms : List Datom

/-- `RegisteredObserver`, with the deliveries that the observer has got. -/
structure RegisteredObserver where
  deliveries : List Delivery
  lastSeenEpoch : UInt64
  filter : Option DatomFilter

namespace RegisteredObserver

/-- The observer accepts a datom: it has no filter, or the filter matches. -/
def accepts (observer : RegisteredObserver) (d : Datom) : Bool :=
  match observer.filter with
  | none => true
  | some filter => filter.matchesDatom d

/-- The datoms passed to the observer. -/
def received (observer : RegisteredObserver) : List Datom :=
  observer.deliveries.flatMap Delivery.datoms

/-- Pass a delivery to the observer. -/
def pass (observer : RegisteredObserver) (delivery : Delivery) : RegisteredObserver :=
  { observer with deliveries := observer.deliveries ++ [delivery] }

end RegisteredObserver

/-- `buffered_delta_since`: the datoms of the recent entries after an epoch, when the history
reaches back to it. -/
def bufferedDeltaSince (recent : List BroadcastEntry) (fromEpoch : UInt64) :
    Option (List Datom) :=
  match recent with
  | [] => none
  | first :: _ =>
      if min (fromEpoch.toNat + 1) (2 ^ 64 - 1) < first.epoch.toNat then none
      else some ((recent.filter fun entry => fromEpoch < entry.epoch).flatMap BroadcastEntry.datoms)

/-- `ObserverBroadcast` -/
structure ObserverBroadcast where
  observers : List RegisteredObserver
  recent : List BroadcastEntry
  maxBuffer : Nat

/-- `new`: no observers and no history; the history holds at least one entry. -/
def ObserverBroadcast.new (maxBuffer : Nat) : ObserverBroadcast :=
  ⟨[], [], max maxBuffer 1⟩

/-- `push_back` followed by `pop_front` while the history is too long. -/
def pushRecent (maxBuffer : Nat) (recent : List BroadcastEntry) (entry : BroadcastEntry) :
    List BroadcastEntry :=
  (recent ++ [entry]).drop ((recent ++ [entry]).length - maxBuffer)

section Store

variable [Blake3]

/-- `full_store_catchup`: all datoms of the store. -/
def fullStoreCatchup (store : Store) : List Datom :=
  store.datoms

/-- `register_impl`: catch the observer up with the store and add it. -/
def ObserverBroadcast.register (broadcast : ObserverBroadcast) (filter : Option DatomFilter)
    (store : Store) : ObserverBroadcast :=
  let observer : RegisteredObserver := ⟨[], store.epoch, filter⟩
  let observer :=
    if 0 < store.epoch then
      observer.pass (.onCatchup 0 (store.datoms.filter observer.accepts))
    else observer
  { broadcast with observers := broadcast.observers ++ [observer] }

/-- The body of the loop of `publish`: what one observer gets. -/
def RegisteredObserver.deliver (observer : RegisteredObserver) (recent : List BroadcastEntry)
    (epoch : UInt64) (datoms : List Datom) (store : Store) : RegisteredObserver :=
  if epoch ≤ observer.lastSeenEpoch then observer
  else if observer.lastSeenEpoch.toNat + 1 < epoch.toNat then
    let catchup :=
      (bufferedDeltaSince recent observer.lastSeenEpoch).getD (fullStoreCatchup store)
    { observer.pass (.onCatchup observer.lastSeenEpoch (catchup.filter observer.accepts)) with
      lastSeenEpoch := epoch }
  else
    { observer.pass (.onCommit epoch (datoms.filter observer.accepts)) with
      lastSeenEpoch := epoch }

/-- `publish`: record a committed batch and pass it to all observers. -/
def ObserverBroadcast.publish (broadcast : ObserverBroadcast) (epoch : UInt64)
    (datoms : List Datom) (store : Store) : ObserverBroadcast :=
  let recent := pushRecent broadcast.maxBuffer broadcast.recent ⟨epoch, datoms⟩
  { broadcast with
    recent := recent
    observers := broadcast.observers.map fun observer =>
      observer.deliver recent epoch datoms store }

end Store

section Deliver

/-- The entry of a publication is in the history that its observers are served from. -/
theorem mem_pushRecent {maxBuffer : Nat} (hpos : 0 < maxBuffer) (recent : List BroadcastEntry)
    (entry : BroadcastEntry) : entry ∈ pushRecent maxBuffer recent entry := by
  rw [pushRecent, List.length_append, List.length_singleton]
  have hdrop : recent.length + 1 - maxBuffer ≤ recent.length := by omega
  rw [List.drop_append_of_le_length hdrop]
  exact List.mem_append_right _ List.mem_cons_self

/-- The first publication is the whole history. -/
theorem pushRecent_nil {maxBuffer : Nat} (hpos : 0 < maxBuffer) (entry : BroadcastEntry) :
    pushRecent maxBuffer [] entry = [entry] := by
  have hdrop : ([] ++ [entry]).length - maxBuffer = 0 := by
    show 1 - maxBuffer = 0
    omega
  rw [pushRecent, hdrop]
  rfl

/-- A history that starts after the next epoch does not reach back. -/
theorem bufferedDeltaSince_singleton {entry : BroadcastEntry} {fromEpoch : UInt64}
    (h : fromEpoch.toNat + 1 < entry.epoch.toNat) :
    bufferedDeltaSince [entry] fromEpoch = none := by
  have hlt : min (fromEpoch.toNat + 1) (2 ^ 64 - 1) < entry.epoch.toNat :=
    (min_le_left _ _).trans_lt h
  rw [bufferedDeltaSince, if_pos hlt]

/-- What a catch-up from the history holds of an entry after the epoch. -/
theorem mem_bufferedDeltaSince {recent : List BroadcastEntry} {fromEpoch : UInt64}
    {delta : List Datom} (h : bufferedDeltaSince recent fromEpoch = some delta)
    {entry : BroadcastEntry} (hentry : entry ∈ recent) (hlt : fromEpoch < entry.epoch) {d : Datom}
    (hd : d ∈ entry.datoms) : d ∈ delta := by
  unfold bufferedDeltaSince at h
  split at h
  case h_1 => cases h
  case h_2 =>
      split at h
      case isTrue => cases h
      case isFalse =>
          cases h
          refine List.mem_flatMap.mpr ⟨entry, List.mem_filter.mpr ⟨hentry, ?_⟩, hd⟩
          exact decide_eq_true hlt

variable [Blake3]

/-- The catch-up from the store passes every datom of it. -/
theorem mem_fullStoreCatchup {store : Store} {d : Datom} :
    d ∈ fullStoreCatchup store ↔ d ∈ store.datomSet := by
  rw [fullStoreCatchup, Store.datomSet, ← StoreRepr.toFinset_datoms, List.mem_toFinset]
  rfl

namespace RegisteredObserver

variable {observer : RegisteredObserver} {recent : List BroadcastEntry} {epoch : UInt64}
  {datoms : List Datom}

omit [Blake3] in
/-- A delivery adds its datoms to those received. -/
theorem mem_received_pass {delivery : Delivery} {d : Datom} :
    d ∈ (observer.pass delivery).received ↔ d ∈ observer.received ∨ d ∈ delivery.datoms := by
  rw [received, pass, List.flatMap_append, List.mem_append, List.flatMap_singleton]
  rfl

/-- A publication moves the observer to its epoch, keeps its filter and takes nothing back. -/
theorem deliver_keeps (observer : RegisteredObserver) (recent : List BroadcastEntry)
    (epoch : UInt64) (datoms : List Datom) (store : Store) :
    (observer.deliver recent epoch datoms store).lastSeenEpoch = max observer.lastSeenEpoch epoch ∧
      (observer.deliver recent epoch datoms store).filter = observer.filter ∧
      ∀ d ∈ observer.received, d ∈ (observer.deliver recent epoch datoms store).received := by
  unfold deliver
  split
  case isTrue hseen => exact ⟨(max_eq_left hseen).symm, rfl, fun d hd => hd⟩
  case isFalse hnew =>
      have hmax : epoch = max observer.lastSeenEpoch epoch :=
        (max_eq_right (le_of_not_ge hnew)).symm
      split
      case isTrue => exact ⟨hmax, rfl, fun d hd => mem_received_pass.mpr (.inl hd)⟩
      case isFalse => exact ⟨hmax, rfl, fun d hd => mem_received_pass.mpr (.inl hd)⟩

/-- What a new publication passes to an observer: its own datoms that the observer accepts, or
those of the whole store when the observer is further behind and the history does not reach
back. -/
theorem deliver_spec (store : Store) (hnew : observer.lastSeenEpoch < epoch)
    (hentry : (⟨epoch, datoms⟩ : BroadcastEntry) ∈ recent) {d : Datom}
    (haccepts : observer.accepts d) :
    (observer.lastSeenEpoch.toNat + 1 < epoch.toNat ∧
        bufferedDeltaSince recent observer.lastSeenEpoch = none →
      d ∈ store.datomSet → d ∈ (observer.deliver recent epoch datoms store).received) ∧
    (¬(observer.lastSeenEpoch.toNat + 1 < epoch.toNat ∧
        bufferedDeltaSince recent observer.lastSeenEpoch = none) →
      d ∈ datoms → d ∈ (observer.deliver recent epoch datoms store).received) := by
  unfold deliver
  rw [if_neg (not_le.mpr hnew)]
  by_cases hgap : observer.lastSeenEpoch.toNat + 1 < epoch.toNat
  · rw [if_pos hgap]
    cases hdelta : bufferedDeltaSince recent observer.lastSeenEpoch with
    | none =>
        refine ⟨fun _ hd => ?_, fun h => absurd ⟨hgap, rfl⟩ h⟩
        refine mem_received_pass.mpr (.inr (List.mem_filter.mpr ⟨?_, haccepts⟩))
        exact mem_fullStoreCatchup.mpr hd
    | some delta =>
        refine ⟨fun h => (nomatch h.2), fun _ hd => ?_⟩
        refine mem_received_pass.mpr (.inr (List.mem_filter.mpr ⟨?_, haccepts⟩))
        exact mem_bufferedDeltaSince hdelta hentry hnew hd
  · rw [if_neg hgap]
    refine ⟨fun h => absurd h.1 hgap, fun _ hd => ?_⟩
    exact mem_received_pass.mpr (.inr (List.mem_filter.mpr ⟨hd, haccepts⟩))

end RegisteredObserver

end Deliver

end Ferratomic
