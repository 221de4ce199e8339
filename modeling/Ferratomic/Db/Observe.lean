import Ferratomic.Db.Lifetimes
import Ferratomic.Observer

/-!
# Delivery to observers

A call commits under the write lock and notifies the observers after it has released the lock, so
the notifications of concurrent calls reach the broadcast in any order. A notification first loads
the published store and then publishes the receipts of its call, as two steps that others may come
between. The main theorem, `delivered_at_least_once`, says that in runs where no notification
overtakes, for an observer that is still behind, an earlier one, every observer is passed all that
is committed after its registration; `overtaken_commit_lost` is a run that loses a transaction.
-/

namespace Ferratomic

open Lib

section Observers

variable [Blake3]

/-- The notification of a call that is still to run: the receipts of the call, and the published
store once it was loaded. -/
structure Notice where
  receipts : List TxReceipt
  nonempty : receipts ≠ []
  published : Option Store

namespace Notice

/-- The epoch of the first receipt. -/
def first (notice : Notice) : UInt64 :=
  (notice.receipts.head notice.nonempty).epoch

/-- The epoch of the last receipt, which the notification publishes. -/
def last (notice : Notice) : UInt64 :=
  (notice.receipts.getLast notice.nonempty).epoch

/-- The datoms of all receipts. -/
def datoms (notice : Notice) : List Datom :=
  notice.receipts.flatMap TxReceipt.datoms

/-- Load the published store, once. -/
def load (notice : Notice) (store : Store) : Notice :=
  { notice with published := notice.published.or (some store) }

end Notice

/-- A database with its observers and the notifications that are still to run. -/
structure Observed where
  db : Database
  broadcast : ObserverBroadcast
  pending : List Notice

/-- A step: a call commits, a notification loads the store or publishes, an observer registers. -/
inductive ObserveStep where
  | call (call : Call) (env : Env)
  | load (index : Nat)
  | publish (index : Nat)
  | register (filter : Option DatomFilter)

namespace Observed

/-- A database before its first call, without observers. -/
def start (db : Database) : Observed :=
  ⟨db, .new defaultObserverBuffer, []⟩

/-- The notification of a call, if it has committed something. -/
def notices (receipts : List TxReceipt) : List Notice :=
  if h : receipts = [] then [] else [⟨receipts, h, none⟩]

variable [Bincode]

/-- The receipts that a step commits. -/
def committedBy (state : Observed) : ObserveStep → List TxReceipt
  | .call call env => (state.db.step call env).1.toOption.getD []
  | _ => []

/-- One step. A notification that has not loaded the store cannot publish yet. -/
def step (state : Observed) : ObserveStep → Observed
  | .call call env =>
      { state with
        db := (state.db.step call env).2
        pending := state.pending ++ notices (state.committedBy (.call call env)) }
  | .load index =>
      { state with
        pending := state.pending.modify index fun notice => notice.load state.db.current }
  | .publish index =>
      match state.pending[index]? with
      | none => state
      | some notice =>
          match notice.published with
          | none => state
          | some store =>
              { state with
                broadcast := state.broadcast.publish notice.last notice.datoms store
                pending := state.pending.eraseIdx index }
  | .register filter =>
      { state with broadcast := state.broadcast.register filter state.db.current }

/-- A sequence of steps. -/
def run (state : Observed) (steps : List ObserveStep) : Observed :=
  steps.foldl step state

/-- The receipts that a sequence of steps commits. -/
def committed (state : Observed) : List ObserveStep → List TxReceipt
  | [] => []
  | next :: rest => state.committedBy next ++ (state.step next).committed rest

/-- A publication with a history finds no observer that has not seen an earlier commit: each
observer that the publication is new to has seen the epoch before the call. -/
def InOrder (state : Observed) : ObserveStep → Prop
  | .publish index => ∀ notice, state.pending[index]? = some notice →
      state.broadcast.recent = [] ∨ ∀ observer ∈ state.broadcast.observers,
        observer.lastSeenEpoch < notice.last →
          notice.first.toNat ≤ observer.lastSeenEpoch.toNat + 1
  | _ => True

/-- Every step of a run is in order. -/
def RunsInOrder (state : Observed) : List ObserveStep → Prop
  | [] => True
  | next :: rest => state.InOrder next ∧ (state.step next).RunsInOrder rest

omit [Bincode] in
instance (state : Observed) (index : Nat) : Decidable (state.InOrder (.publish index)) :=
  inferInstanceAs (Decidable (∀ notice ∈ state.pending[index]?,
    state.broadcast.recent = [] ∨ ∀ observer ∈ state.broadcast.observers,
      observer.lastSeenEpoch < notice.last →
        notice.first.toNat ≤ observer.lastSeenEpoch.toNat + 1))

omit [Bincode] in
instance (state : Observed) : (next : ObserveStep) → Decidable (state.InOrder next)
  | .call _ _ => .isTrue trivial
  | .load _ => .isTrue trivial
  | .publish index => inferInstanceAs (Decidable (state.InOrder (.publish index)))
  | .register _ => .isTrue trivial

instance decidableRunsInOrder :
    (state : Observed) → (steps : List ObserveStep) → Decidable (state.RunsInOrder steps)
  | _, [] => .isTrue trivial
  | state, next :: rest =>
      have := decidableRunsInOrder (state.step next) rest
      inferInstanceAs (Decidable (state.InOrder next ∧ (state.step next).RunsInOrder rest))

section Sound

omit [Bincode] in
/-- A new notice holds the call's receipts and has loaded no store. -/
theorem mem_notices {receipts : List TxReceipt} {notice : Notice} (h : notice ∈ notices receipts) :
    notice.receipts = receipts ∧ notice.published = none := by
  unfold notices at h
  split at h
  case isTrue => exact absurd h List.not_mem_nil
  case isFalse =>
      rw [List.mem_singleton.mp h]
      exact ⟨rfl, rfl⟩

omit [Bincode] in
/-- Every receipt of a call is in one of its notices. -/
theorem exists_notices {receipts : List TxReceipt} {receipt : TxReceipt}
    (h : receipt ∈ receipts) : ∃ notice ∈ notices receipts, receipt ∈ notice.receipts := by
  have hne : receipts ≠ [] := List.ne_nil_of_mem h
  refine ⟨⟨receipts, hne, none⟩, ?_, h⟩
  rw [notices, dif_neg hne]
  exact List.mem_cons_self

/-- What a call commits: its receipts have epochs after those of the store before it and up to the
store after it, and the store after it holds them. -/
theorem committedBy_call (state : Observed) (call : Call) (env : Env) :
    ∃ epoch schema, Stamps state.db.current.epoch state.db.current.schema
        (state.committedBy (.call call env)) epoch schema ∧
      epoch = (state.db.step call env).2.current.epoch ∧
      ∀ d, d ∈ (state.db.step call env).2.current.datomSet ↔ d ∈ state.db.current.datomSet ∨
        ∃ receipt ∈ state.committedBy (.call call env), d ∈ receipt.datoms := by
  have hresults : state.committedBy (.call call env) =
      (state.db.step call env).1.toOption.getD [] := rfl
  rw [hresults]
  cases hresult : (state.db.step call env).1 with
  | error e =>
      rw [(Database.step_error hresult).1]
      refine ⟨_, _, .nil _ _, rfl, fun d => ⟨.inl, fun h => h.resolve_right ?_⟩⟩
      rintro ⟨receipt, hreceipt, -⟩
      exact absurd hreceipt List.not_mem_nil
  | ok receipts =>
      obtain ⟨txIds, hpublished⟩ := Database.step_published hresult
      have hmem (d : Datom) := hpublished.commits.mem_datomSet (d := d)
      obtain ⟨epoch, schema, hstamps, hobs⟩ := hpublished.commits
      exact ⟨epoch, schema, hstamps, (congrArg Observation.epoch hobs).symm, hmem⟩

/-- The notifications that are still to run are those of earlier calls, and no observer is ahead of
the store. -/
structure Sound (state : Observed) : Prop where
  buffer : 0 < state.broadcast.maxBuffer
  within : ∀ notice ∈ state.pending, ∀ receipt ∈ notice.receipts,
    notice.first ≤ receipt.epoch ∧ receipt.epoch ≤ notice.last
  upto : ∀ notice ∈ state.pending, notice.last ≤ state.db.current.epoch
  seen : ∀ observer ∈ state.broadcast.observers,
    observer.lastSeenEpoch ≤ state.db.current.epoch

omit [Bincode] in
/-- A database before its first call is sound. -/
theorem sound_start (db : Database) : (start db).Sound where
  buffer := by
    show 0 < max defaultObserverBuffer 1
    decide
  within := fun _ h => absurd h List.not_mem_nil
  upto := fun _ h => absurd h List.not_mem_nil
  seen := fun _ h => absurd h List.not_mem_nil

/-- A call keeps the state sound. -/
theorem Sound.call {state : Observed} (h : state.Sound) (call : Call) (env : Env) :
    (state.step (.call call env)).Sound := by
  obtain ⟨epoch, schema, hstamps, hepoch, -⟩ := committedBy_call state call env
  have hgrows : state.db.current.epoch ≤ (state.db.step call env).2.current.epoch :=
    hepoch ▸ hstamps.epoch_le
  refine ⟨h.buffer, fun notice hnotice => ?_, fun notice hnotice => ?_, fun observer hobserver =>
    (h.seen observer hobserver).trans hgrows⟩
  · rcases List.mem_append.mp hnotice with hold | hnew
    · exact h.within notice hold
    · obtain ⟨receipts, hne, published⟩ := notice
      obtain ⟨rfl, -⟩ := mem_notices hnew
      intro receipt hreceipt
      refine ⟨hstamps.epoch_head_le hne hreceipt, ?_⟩
      exact (hstamps.epoch_mem hreceipt).2.trans_eq (hstamps.epoch_getLast hne).symm
  · rcases List.mem_append.mp hnotice with hold | hnew
    · exact (h.upto notice hold).trans hgrows
    · obtain ⟨receipts, hne, published⟩ := notice
      obtain ⟨rfl, -⟩ := mem_notices hnew
      exact ((hstamps.epoch_getLast hne).trans hepoch).le

omit [Bincode] in
/-- A load step changes at most the store that one notice has loaded. -/
theorem mem_modify_load {pending : List Notice} {index : Nat} {store : Store} {notice : Notice}
    (h : notice ∈ pending.modify index fun notice => notice.load store) :
    ∃ original ∈ pending, notice = original ∨ notice = original.load store := by
  obtain ⟨position, hposition⟩ := List.mem_iff_getElem?.mp h
  rw [List.getElem?_modify] at hposition
  obtain ⟨original, horiginal, rfl⟩ := Option.map_eq_some_iff.mp hposition
  refine ⟨original, List.mem_of_getElem? horiginal, ?_⟩
  by_cases hindex : index = position
  · rw [if_pos hindex]
    exact .inr rfl
  · rw [if_neg hindex]
    exact .inl rfl

omit [Bincode] in
/-- A notice that loads a store keeps its receipts. -/
theorem exists_mem_modify_load {pending : List Notice} {original : Notice}
    (h : original ∈ pending) (index : Nat) (store : Store) :
    ∃ notice ∈ pending.modify index fun notice => notice.load store,
      notice.receipts = original.receipts := by
  obtain ⟨position, hposition⟩ := List.mem_iff_getElem?.mp h
  refine ⟨if index = position then original.load store else original, ?_, ?_⟩
  · refine List.mem_of_getElem? (i := position) ?_
    rw [List.getElem?_modify, hposition]
    rfl
  · split
    case isTrue => rfl
    case isFalse => rfl

/-- What a publication step does: nothing, or it publishes a notice that has loaded its store. -/
theorem step_publish (state : Observed) (index : Nat) :
    state.step (.publish index) = state ∨
      ∃ notice store, state.pending[index]? = some notice ∧ notice.published = some store ∧
        state.step (.publish index) =
          { state with
            broadcast := state.broadcast.publish notice.last notice.datoms store
            pending := state.pending.eraseIdx index } := by
  simp only [step]
  cases hnotice : state.pending[index]? with
  | none => exact .inl rfl
  | some notice =>
      cases hstore : notice.published with
      | none =>
          simp only [hstore]
          exact .inl trivial
      | some store =>
          simp only [hstore]
          exact .inr ⟨notice, store, rfl, hstore, rfl⟩

/-- Every step keeps the state sound. -/
theorem Sound.step {state : Observed} (h : state.Sound) (next : ObserveStep) :
    (state.step next).Sound := by
  cases next with
  | call call env => exact h.call call env
  | load index =>
      refine ⟨h.buffer, fun notice hnotice => ?_, fun notice hnotice => ?_, h.seen⟩
      · obtain ⟨original, horiginal, rfl | rfl⟩ := mem_modify_load hnotice
        · exact h.within notice horiginal
        · exact h.within original horiginal
      · obtain ⟨original, horiginal, rfl | rfl⟩ := mem_modify_load hnotice
        · exact h.upto notice horiginal
        · exact h.upto original horiginal
  | register filter =>
      refine ⟨h.buffer, h.within, h.upto, fun observer hobserver => ?_⟩
      rcases List.mem_append.mp hobserver with hold | hnew
      · exact h.seen observer hold
      · rw [List.mem_singleton.mp hnew]
        show (if 0 < state.db.current.epoch then _ else _ : RegisteredObserver).lastSeenEpoch ≤ _
        split
        case isTrue => exact le_refl state.db.current.epoch
        case isFalse => exact le_refl state.db.current.epoch
  | publish index =>
      rcases state.step_publish index with hsame | ⟨notice, store, hnotice, -, hstep⟩
      · rw [hsame]
        exact h
      · rw [hstep]
        have hmem := List.mem_of_getElem? hnotice
        refine ⟨h.buffer, fun other hother => h.within other (List.mem_of_mem_eraseIdx hother),
          fun other hother => h.upto other (List.mem_of_mem_eraseIdx hother),
          fun observer hobserver => ?_⟩
        obtain ⟨before, hbefore, rfl⟩ := List.mem_map.mp hobserver
        rw [(RegisteredObserver.deliver_keeps _ _ _ _ _).1]
        exact max_le (h.seen before hbefore) (h.upto notice hmem)

/-- Every run keeps the state sound. -/
theorem Sound.run {state : Observed} (h : state.Sound) (steps : List ObserveStep) :
    (state.run steps).Sound := by
  induction steps generalizing state with
  | nil => exact h
  | cons next rest ih => exact ih (h.step next)

end Sound

section Tracks

/-- What is known of one observer and the receipts committed since its registration: those up to
its last seen epoch were passed to it, the later ones are still to be notified, and every notice
holds the receipts between its first and its last epoch and has loaded a store that holds them all
up to its last. -/
structure Tracks (state : Observed) (observer : RegisteredObserver) (receipts : List TxReceipt) :
    Prop where
  delivered : ∀ receipt ∈ receipts, receipt.epoch ≤ observer.lastSeenEpoch →
    ∀ d ∈ receipt.datoms, observer.accepts d → d ∈ observer.received
  waiting : ∀ receipt ∈ receipts, observer.lastSeenEpoch < receipt.epoch →
    ∃ notice ∈ state.pending, receipt ∈ notice.receipts
  placed : ∀ notice ∈ state.pending, ∀ receipt ∈ receipts, receipt.epoch ≤ notice.last →
    receipt ∈ notice.receipts ∨ receipt.epoch < notice.first
  loaded : ∀ notice ∈ state.pending, ∀ store, notice.published = some store →
    ∀ receipt ∈ receipts, receipt.epoch ≤ notice.last → ∀ d ∈ receipt.datoms, d ∈ store.datomSet
  held : ∀ receipt ∈ receipts, receipt.epoch ≤ state.db.current.epoch ∧
    ∀ d ∈ receipt.datoms, d ∈ state.db.current.datomSet

/-- A call adds its receipts to those an observer is still to be notified of. -/
theorem Tracks.call {state : Observed} (hsound : state.Sound) {observer : RegisteredObserver}
    (hseen : observer.lastSeenEpoch ≤ state.db.current.epoch) {receipts : List TxReceipt}
    (h : state.Tracks observer receipts) (call : Call) (env : Env) :
    (state.step (.call call env)).Tracks observer
      (receipts ++ state.committedBy (.call call env)) := by
  obtain ⟨epoch, schema, hstamps, hepoch, hdatoms⟩ := committedBy_call state call env
  have hgrows : state.db.current.epoch ≤ (state.db.step call env).2.current.epoch :=
    hepoch ▸ hstamps.epoch_le
  have hafter (receipt : TxReceipt) (hnew : receipt ∈ state.committedBy (.call call env)) :
      state.db.current.epoch < receipt.epoch := (hstamps.epoch_mem hnew).1
  -- every conjunct splits into the receipts from before and those that the call commits
  refine ⟨fun receipt hreceipt hle => ?_, fun receipt hreceipt hlt => ?_,
    fun notice hnotice receipt hreceipt hle => ?_,
    fun notice hnotice store hstore receipt hreceipt hle => ?_, fun receipt hreceipt => ?_⟩
  · rcases List.mem_append.mp hreceipt with hold | hnew
    · exact h.delivered receipt hold hle
    · exact absurd (hle.trans hseen) (not_le.mpr (hafter receipt hnew))
  · rcases List.mem_append.mp hreceipt with hold | hnew
    · obtain ⟨notice, hnotice, hmem⟩ := h.waiting receipt hold hlt
      exact ⟨notice, List.mem_append_left _ hnotice, hmem⟩
    · obtain ⟨notice, hnotice, hmem⟩ := exists_notices hnew
      exact ⟨notice, List.mem_append_right _ hnotice, hmem⟩
  · rcases List.mem_append.mp hnotice with hpending | hpending
    · rcases List.mem_append.mp hreceipt with hold | hnew
      · exact h.placed notice hpending receipt hold hle
      · exact absurd (hle.trans (hsound.upto notice hpending)) (not_le.mpr (hafter receipt hnew))
    · obtain ⟨hreceipts, -⟩ := mem_notices hpending
      rcases List.mem_append.mp hreceipt with hold | hnew
      · refine .inr ((h.held receipt hold).1.trans_lt (hafter _ ?_))
        rw [← hreceipts]
        exact List.head_mem notice.nonempty
      · exact .inl (hreceipts ▸ hnew)
  · rcases List.mem_append.mp hnotice with hpending | hpending
    · rcases List.mem_append.mp hreceipt with hold | hnew
      · exact h.loaded notice hpending store hstore receipt hold hle
      · exact absurd (hle.trans (hsound.upto notice hpending)) (not_le.mpr (hafter receipt hnew))
    · rw [(mem_notices hpending).2] at hstore
      cases hstore
  · rcases List.mem_append.mp hreceipt with hold | hnew
    · obtain ⟨hle, hmem⟩ := h.held receipt hold
      exact ⟨hle.trans hgrows, fun d hd => (hdatoms d).mpr (.inl (hmem d hd))⟩
    · exact ⟨hepoch ▸ (hstamps.epoch_mem hnew).2,
        fun d hd => (hdatoms d).mpr (.inr ⟨receipt, hnew, hd⟩)⟩

/-- Loading the published store changes nothing an observer was passed. -/
theorem Tracks.load {state : Observed} {observer : RegisteredObserver} {receipts : List TxReceipt}
    (h : state.Tracks observer receipts) (index : Nat) :
    (state.step (.load index)).Tracks observer receipts := by
  refine ⟨h.delivered, fun receipt hreceipt hlt => ?_,
    fun notice hnotice receipt hreceipt hle => ?_,
    fun notice hnotice store hstore receipt hreceipt hle => ?_, h.held⟩
  · obtain ⟨notice, hnotice, hmem⟩ := h.waiting receipt hreceipt hlt
    obtain ⟨loaded, hloaded, hsame⟩ := exists_mem_modify_load hnotice index state.db.current
    exact ⟨loaded, hloaded, hsame ▸ hmem⟩
  · obtain ⟨original, horiginal, rfl | rfl⟩ := mem_modify_load hnotice
    · exact h.placed notice horiginal receipt hreceipt hle
    · exact h.placed original horiginal receipt hreceipt hle
  · obtain ⟨original, horiginal, rfl | rfl⟩ := mem_modify_load hnotice
    · exact h.loaded notice horiginal store hstore receipt hreceipt hle
    · cases hpublished : original.published with
      | some before =>
          -- the store was loaded before, and stays
          simp only [Notice.load, hpublished, Option.some_or] at hstore
          cases hstore
          exact h.loaded original horiginal store hpublished receipt hreceipt hle
      | none =>
          simp only [Notice.load, hpublished, Option.none_or] at hstore
          cases hstore
          exact (h.held receipt hreceipt).2

omit [Bincode] in
/-- An observer that has not seen an earlier receipt than those of a publication in order is caught
up from the whole store. -/
theorem catchesUp {state : Observed} (hsound : state.Sound) {observer : RegisteredObserver}
    {index : Nat} {notice : Notice} (hnotice : state.pending[index]? = some notice)
    (horder : state.broadcast.recent = [] ∨ (observer.lastSeenEpoch < notice.last →
      notice.first.toNat ≤ observer.lastSeenEpoch.toNat + 1))
    {epoch : UInt64} (hafter : observer.lastSeenEpoch < epoch) (hbelow : epoch < notice.first) :
    observer.lastSeenEpoch.toNat + 1 < notice.last.toNat ∧
      bufferedDeltaSince (pushRecent state.broadcast.maxBuffer state.broadcast.recent
        ⟨notice.last, notice.datoms⟩) observer.lastSeenEpoch = none := by
  have hfirst : notice.first ≤ notice.last :=
    (hsound.within notice (List.mem_of_getElem? hnotice) _ (List.head_mem notice.nonempty)).2
  rw [UInt64.lt_iff_toNat_lt] at hafter hbelow
  rw [UInt64.le_iff_toNat_le] at hfirst
  have hgap : observer.lastSeenEpoch.toNat + 1 < notice.last.toNat := by omega
  refine ⟨hgap, ?_⟩
  rcases horder with hempty | hseen
  · rw [hempty, pushRecent_nil hsound.buffer]
    exact bufferedDeltaSince_singleton hgap
  · have hnew : observer.lastSeenEpoch < notice.last := by
      rw [UInt64.lt_iff_toNat_lt]
      omega
    have hle := hseen hnew
    omega

omit [Bincode] in
/-- A publication that is in order keeps track: the observer that it is new to gets the receipts
after its last seen epoch, from the batch itself or from the whole store. -/
theorem Tracks.publish {state : Observed} (hsound : state.Sound) {observer : RegisteredObserver}
    {receipts : List TxReceipt} (h : state.Tracks observer receipts) {index : Nat}
    {notice : Notice} (hnotice : state.pending[index]? = some notice) {store : Store}
    (hstore : notice.published = some store)
    (horder : state.broadcast.recent = [] ∨ (observer.lastSeenEpoch < notice.last →
      notice.first.toNat ≤ observer.lastSeenEpoch.toNat + 1)) :
    ({ state with
        broadcast := state.broadcast.publish notice.last notice.datoms store
        pending := state.pending.eraseIdx index } : Observed).Tracks
      (observer.deliver (pushRecent state.broadcast.maxBuffer state.broadcast.recent
        ⟨notice.last, notice.datoms⟩) notice.last notice.datoms store) receipts := by
  have hmem : notice ∈ state.pending := List.mem_of_getElem? hnotice
  obtain ⟨hseen, hfilter, hkeeps⟩ := RegisteredObserver.deliver_keeps observer
    (pushRecent state.broadcast.maxBuffer state.broadcast.recent ⟨notice.last, notice.datoms⟩)
    notice.last notice.datoms store
  have haccepts (d : Datom) : (observer.deliver (pushRecent state.broadcast.maxBuffer
      state.broadcast.recent ⟨notice.last, notice.datoms⟩) notice.last notice.datoms
      store).accepts d = observer.accepts d := by
    rw [RegisteredObserver.accepts, RegisteredObserver.accepts, hfilter]
  refine ⟨fun receipt hreceipt hle d hd haccept => ?_, fun receipt hreceipt hlt => ?_,
    fun other hother => h.placed other (List.mem_of_mem_eraseIdx hother),
    fun other hother => h.loaded other (List.mem_of_mem_eraseIdx hother), h.held⟩
  · rw [haccepts] at haccept
    rw [hseen] at hle
    -- what was delivered stays delivered; a later receipt comes with the store or with the notice
    by_cases hbefore : receipt.epoch ≤ observer.lastSeenEpoch
    · exact hkeeps d (h.delivered receipt hreceipt hbefore d hd haccept)
    · have hafter : observer.lastSeenEpoch < receipt.epoch := not_le.mp hbefore
      have hupto : receipt.epoch ≤ notice.last := (le_max_iff.mp hle).resolve_left hbefore
      have hentry := mem_pushRecent hsound.buffer state.broadcast.recent
        ⟨notice.last, notice.datoms⟩
      have hspec := RegisteredObserver.deliver_spec store (hafter.trans_le hupto) hentry haccept
      by_cases hwhole : observer.lastSeenEpoch.toNat + 1 < notice.last.toNat ∧
          bufferedDeltaSince (pushRecent state.broadcast.maxBuffer state.broadcast.recent
            ⟨notice.last, notice.datoms⟩) observer.lastSeenEpoch = none
      · exact hspec.1 hwhole (h.loaded notice hmem store hstore receipt hreceipt hupto d hd)
      · refine hspec.2 hwhole ?_
        rcases h.placed notice hmem receipt hreceipt hupto with hin | hbelow
        · exact List.mem_flatMap.mpr ⟨receipt, hin, hd⟩
        · -- an earlier receipt that the observer has not seen forces a catch-up from the store
          exact absurd (catchesUp hsound hnotice horder hafter hbelow) hwhole
  · rw [hseen] at hlt
    -- a receipt beyond this notice waits in another one
    obtain ⟨hseenLt, hlastLt⟩ := max_lt_iff.mp hlt
    obtain ⟨other, hother, hin⟩ := h.waiting receipt hreceipt hseenLt
    obtain ⟨position, hposition⟩ := List.mem_iff_getElem?.mp hother
    refine ⟨other, List.mem_eraseIdx_iff_getElem?.mpr ⟨position, ?_, hposition⟩, hin⟩
    rintro rfl
    obtain rfl : notice = other := Option.some.inj (hnotice.symm.trans hposition)
    exact absurd (hsound.within notice hmem receipt hin).2 (not_le.mpr hlastLt)

/-- Registration keeps track of the observers before it. -/
theorem Tracks.register {state : Observed} {observer : RegisteredObserver}
    {receipts : List TxReceipt} (h : state.Tracks observer receipts)
    (filter : Option DatomFilter) :
    (state.step (.register filter)).Tracks observer receipts :=
  ⟨h.delivered, h.waiting, h.placed, h.loaded, h.held⟩

/-- A step in order keeps track of every observer. -/
theorem Tracks.step {state : Observed} (hsound : state.Sound) {position : Nat}
    {observer : RegisteredObserver}
    (hobserver : state.broadcast.observers[position]? = some observer)
    {receipts : List TxReceipt} (h : state.Tracks observer receipts) {next : ObserveStep}
    (horder : state.InOrder next) :
    ∃ observer', (state.step next).broadcast.observers[position]? = some observer' ∧
      observer'.filter = observer.filter ∧
      (state.step next).Tracks observer' (receipts ++ state.committedBy next) := by
  have hmem : observer ∈ state.broadcast.observers := List.mem_of_getElem? hobserver
  cases next with
  | call call env =>
      exact ⟨observer, hobserver, rfl, h.call hsound (hsound.seen observer hmem) call env⟩
  | load index =>
      refine ⟨observer, hobserver, rfl, ?_⟩
      rw [show state.committedBy (.load index) = [] from rfl, List.append_nil]
      exact h.load index
  | register filter =>
      refine ⟨observer, ?_, rfl, ?_⟩
      · show (state.broadcast.observers ++ _)[position]? = some observer
        obtain ⟨hlt, -⟩ := List.getElem?_eq_some_iff.mp hobserver
        rw [List.getElem?_append_left hlt]
        exact hobserver
      · rw [show state.committedBy (.register filter) = [] from rfl, List.append_nil]
        exact h.register filter
  | publish index =>
      rw [show state.committedBy (.publish index) = [] from rfl, List.append_nil]
      -- a notification without a loaded store does nothing yet
      rcases state.step_publish index with hsame | ⟨notice, store, hnotice, hstore, hstep⟩
      · rw [hsame]
        exact ⟨observer, hobserver, rfl, h⟩
      · rw [hstep]
        have hinOrder := (horder notice hnotice).imp_right fun hall => hall observer hmem
        refine ⟨_, ?_, ?_, h.publish hsound hnotice hstore hinOrder⟩
        · show (state.broadcast.observers.map _)[position]? = _
          rw [List.getElem?_map, hobserver]
          rfl
        · exact (RegisteredObserver.deliver_keeps _ _ _ _ _).2.1

/-- In a run in order an observer stays where it is and is tracked to the end. -/
theorem Tracks.run {state : Observed} (hsound : state.Sound) {position : Nat}
    {observer : RegisteredObserver}
    (hobserver : state.broadcast.observers[position]? = some observer)
    {receipts : List TxReceipt} (h : state.Tracks observer receipts) {steps : List ObserveStep}
    (horder : state.RunsInOrder steps) :
    ∃ observer', (state.run steps).broadcast.observers[position]? = some observer' ∧
      observer'.filter = observer.filter ∧
      (state.run steps).Tracks observer' (receipts ++ state.committed steps) := by
  induction steps generalizing state observer receipts with
  | nil =>
      refine ⟨observer, hobserver, rfl, ?_⟩
      rw [show state.committed [] = [] from rfl, List.append_nil]
      exact h
  | cons next rest ih =>
      obtain ⟨middle, hmiddle, hfilter, htracks⟩ := h.step hsound hobserver horder.1
      obtain ⟨final, hfinal, hfilter', htracks'⟩ := ih (hsound.step next) hmiddle htracks horder.2
      refine ⟨final, hfinal, hfilter'.trans hfilter, ?_⟩
      rw [List.append_assoc] at htracks'
      exact htracks'

omit [Bincode] in
/-- The observer that a registration adds, after the earlier ones. -/
theorem getElem?_register (broadcast : ObserverBroadcast) (filter : Option DatomFilter)
    (store : Store) :
    ∃ observer, (broadcast.register filter store).observers[broadcast.observers.length]? =
      some observer ∧ observer.filter = filter := by
  refine ⟨_, List.getElem?_concat_length, ?_⟩
  split
  case isTrue => rfl
  case isFalse => rfl

/-- Observers registered at any moment, with any filter, are passed at least once every datom they
accept of every transaction committed after their registration, once all notifications have run,
when no publication with a history finds an observer that has not seen an earlier commit. -/
theorem delivered_at_least_once (db : Database) (before after : List ObserveStep)
    (filter : Option DatomFilter)
    (horder : (((start db).run before).step (.register filter)).RunsInOrder after)
    (hdone : ((((start db).run before).step (.register filter)).run after).pending = []) :
    ∃ observer, ((((start db).run before).step (.register filter)).run
        after).broadcast.observers[((start db).run before).broadcast.observers.length]? =
          some observer ∧
      observer.filter = filter ∧
      ∀ receipt ∈ (((start db).run before).step (.register filter)).committed after,
        ∀ d ∈ receipt.datoms, observer.accepts d → d ∈ observer.received := by
  have hsound := ((sound_start db).run before).step (.register filter)
  obtain ⟨observer, hobserver, hfilter⟩ := getElem?_register ((start db).run before).broadcast
    filter ((start db).run before).db.current
  have htracks : (((start db).run before).step (.register filter)).Tracks observer [] :=
    ⟨fun _ h => absurd h List.not_mem_nil, fun _ h => absurd h List.not_mem_nil,
      fun _ _ _ h => absurd h List.not_mem_nil, fun _ _ _ _ _ h => absurd h List.not_mem_nil,
      fun _ h => absurd h List.not_mem_nil⟩
  obtain ⟨final, hfinal, hfilter', htracks'⟩ := htracks.run hsound hobserver horder
  refine ⟨final, hfinal, hfilter'.trans hfilter, fun receipt hreceipt d hd haccept => ?_⟩
  rw [List.nil_append] at htracks'
  refine htracks'.delivered receipt hreceipt ?_ d hd haccept
  -- what the observer had not seen would still wait for its notification
  by_contra hunseen
  obtain ⟨notice, hnotice, -⟩ := htracks'.waiting receipt hreceipt (not_le.mp hunseen)
  rw [hdone] at hnotice
  exact absurd hnotice List.not_mem_nil

end Tracks

end Observed

end Observers

namespace Sample

/-- Two transactions that are committed and notified in order. -/
def notified : List ObserveStep :=
  [.call (.transact document) (working 1), .call (.transact document) (working 2), .load 0, .load 1,
    .publish 0, .publish 0]

/-- Three transactions; the notification of the third overtakes that of the second. -/
def overtaking : List ObserveStep :=
  [.call (.transact document) (working 1), .call (.transact document) (working 2),
    .call (.transact document) (working 3), .load 0, .load 1, .load 2, .publish 0, .publish 1,
    .publish 0]

/-- The filter of documentation texts. -/
def docFilter : Option DatomFilter :=
  some (.attributeNamespace ["db/doc"])

/-- A genesis database with one observer. -/
def watched (filter : Option DatomFilter) : Observed :=
  ((Observed.start Database.genesis).run []).step (.register filter)

end Sample

open Sample

namespace Observed

/-- Two notifications in the order of their commits: an observer with a filter is passed both. -/
theorem delivered_at_least_once_notified :
    (watched docFilter).RunsInOrder notified ∧ ((watched docFilter).run notified).pending = [] ∧
      ((watched docFilter).committed notified).length = 2 ∧
      ∃ observer, ((watched docFilter).run notified).broadcast.observers[0]? = some observer ∧
        observer.filter = docFilter ∧
        ∀ receipt ∈ (watched docFilter).committed notified, ∀ d ∈ receipt.datoms,
          observer.accepts d → d ∈ observer.received := by
  have hfacts : (watched docFilter).RunsInOrder notified ∧
      ((watched docFilter).run notified).pending.length = 0 ∧
      ((watched docFilter).committed notified).length = 2 := by
    decide +kernel
  obtain ⟨horder, hpending, hcommitted⟩ := hfacts
  have hdone : ((watched docFilter).run notified).pending = [] :=
    List.eq_nil_of_length_eq_zero hpending
  have hfirst : ((start Database.genesis).run []).broadcast.observers.length = 0 := rfl
  refine ⟨horder, hdone, hcommitted, ?_⟩
  rw [watched] at horder hdone ⊢
  rw [← hfirst]
  exact delivered_at_least_once Database.genesis [] notified docFilter horder hdone

/-- When the notification of the third transaction overtakes that of the second, the history
answers the catch-up without it and the second is skipped: no datom of its time is passed. -/
theorem overtaken_commit_lost :
    ((watched none).run overtaking).pending = [] ∧
      (∃ receipt ∈ (watched none).committed overtaking, ∃ d ∈ receipt.datoms, d.tx.physical = 2) ∧
      ∃ observer, ((watched none).run overtaking).broadcast.observers = [observer] ∧
        observer.filter = none ∧ ∀ d ∈ observer.received, d.tx.physical ≠ 2 := by
  have hfacts : ((watched none).run overtaking).pending.length = 0 ∧
      (((watched none).committed overtaking).any fun receipt =>
        receipt.datoms.any fun d => d.tx.physical = 2) ∧
      ((watched none).run overtaking).broadcast.observers.length = 1 ∧
      ((watched none).run overtaking).broadcast.observers.all fun observer =>
        observer.filter.isNone && observer.received.all fun d => d.tx.physical ≠ 2 := by
    decide +kernel
  obtain ⟨hpending, hcommitted, hone, hall⟩ := hfacts
  refine ⟨List.eq_nil_of_length_eq_zero hpending, ?_, ?_⟩
  · obtain ⟨receipt, hreceipt, hany⟩ := List.any_eq_true.mp hcommitted
    obtain ⟨d, hd, hphysical⟩ := List.any_eq_true.mp hany
    exact ⟨receipt, hreceipt, d, hd, of_decide_eq_true hphysical⟩
  · obtain ⟨observer, hobserver⟩ := List.length_eq_one_iff.mp hone
    refine ⟨observer, hobserver, ?_⟩
    rw [hobserver, List.all_cons, List.all_nil, Bool.and_true, Bool.and_eq_true] at hall
    obtain ⟨hfilter, hreceived⟩ := hall
    refine ⟨Option.isNone_iff_eq_none.mp hfilter, fun d hd => ?_⟩
    exact of_decide_eq_true (List.all_eq_true.mp hreceived d hd)

end Observed

end Ferratomic
