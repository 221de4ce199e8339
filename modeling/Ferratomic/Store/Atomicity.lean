import Ferratomic.Store.Orders

/-!
# What a failed mutation leaves

The mutating operations of the store assign the epoch, and part of the schema, before schema
evolution can fail, and a replay also inserts the datoms first. The main theorem,
`failed_mutation_unchanged_iff`, says for each operation which failing inputs leave the store as it
was.
-/

namespace Ferratomic

open Lib

namespace Observation

variable {o : Observation}

/-- Adding a datom of the set again changes nothing. -/
theorem Valid.addDatom_of_mem (h : o.Valid) {d : Datom} (hd : d ∈ o.datomSet) :
    o.addDatom d = o := by
  have hcausal : (liveApply o.liveCausal o.liveSet d).1 = o.liveCausal := by
    obtain ⟨event, hevent, hle⟩ := h.causal.latest d hd
    rw [liveApply_fst, recordEvent, if_neg fun hs => not_lt.mpr hle (hs event hevent)]
  have hlive := (h.addDatom d).live
  have hset : (o.addDatom d).datomSet = o.datomSet := Finset.insert_eq_self.mpr hd
  have hcausal : (o.addDatom d).liveCausal = o.liveCausal := hcausal
  rw [hcausal, ← h.live] at hlive
  exact Observation.ext hset rfl rfl rfl hcausal hlive

/-- A commit changes nothing when it keeps the epoch and the schema and its datoms are there. -/
theorem Valid.commit_eq_self_iff (h : o.Valid) {epoch : UInt64} {schema : Schema}
    {datoms : List Datom} : o.commit epoch schema datoms = o ↔
      epoch = o.epoch ∧ schema = o.schema ∧ ∀ d ∈ datoms, d ∈ o.datomSet := by
  constructor
  · intro heq
    refine ⟨congrArg Observation.epoch heq, congrArg Observation.schema heq, fun d hd => ?_⟩
    have hset : (o.commit epoch schema datoms).datomSet = o.datomSet := by rw [heq]
    have hset : (o.addDatoms datoms).datomSet = o.datomSet := hset
    rw [← hset, datomSet_addDatoms]
    exact Finset.mem_union_right _ (List.mem_toFinset.mpr hd)
  · rintro ⟨rfl, rfl, hmem⟩
    have hadd : o.addDatoms datoms = o := by
      induction datoms with
      | nil => rfl
      | cons d rest ih =>
          rw [addDatoms_cons, h.addDatom_of_mem (hmem d List.mem_cons_self)]
          exact ih fun other hother => hmem other (List.mem_cons_of_mem _ hother)
    rw [Observation.commit, hadd]

/-- A replay stops at the first entry that cannot be read, after adding its datoms. -/
theorem batchReplay_at_error {orders : Nat → IterOrder} {index : Nat}
    {done rest : List (UInt64 × List Datom)} {epoch : UInt64} {datoms : List Datom}
    (hdone : ∀ entry ∈ done, Readable entry.2) (hbad : ¬ Readable datoms) :
    (o.batchReplay orders index (done ++ (epoch, datoms) :: rest)).2 =
      o.commit epoch (evolveSchema (orders (index + done.length))
        (evolveAll orders index o.schema (done.map Prod.snd)) datoms).2
        (done.flatMap Prod.snd ++ datoms) := by
  induction done generalizing o index with
  | nil =>
      have herror : (evolveSchema (orders index) o.schema datoms).1 ≠ .ok () :=
        fun hok => hbad (evolveSchema_ok_iff.mp hok)
      rw [List.nil_append, batchReplay, replayEntry]
      rcases hevolve : evolveSchema (orders index) o.schema datoms with ⟨_ | _, schema⟩
      · simp only [List.length_nil, Nat.add_zero, List.map_nil, evolveAll, hevolve,
          List.flatMap_nil, List.nil_append]
      · rw [hevolve] at herror
        exact absurd rfl herror
  | cons entry done ih =>
      obtain ⟨hentry, hdone⟩ := List.forall_mem_cons.mp hdone
      have hok : (evolveSchema (orders index) o.schema entry.2).1 = .ok () :=
        evolveSchema_ok_iff.mpr hentry
      rw [List.cons_append, batchReplay, replayEntry]
      simp only [hok]
      rw [ih hdone, commit_commit, List.length_cons, List.map_cons, evolveAll, List.flatMap_cons,
        List.append_assoc, Nat.add_right_comm, Nat.add_assoc]
      rfl

/-- A replay that can read every entry succeeds. -/
theorem batchReplay_of_readable {orders : Nat → IterOrder} {index : Nat}
    {entries : List (UInt64 × List Datom)} (h : ∀ entry ∈ entries, Readable entry.2) :
    (o.batchReplay orders index entries).1 = .ok () := by
  induction entries generalizing o index with
  | nil => rfl
  | cons entry rest ih =>
      obtain ⟨hentry, hrest⟩ := List.forall_mem_cons.mp h
      have hok : (evolveSchema (orders index) o.schema entry.2).1 = .ok () :=
        evolveSchema_ok_iff.mpr hentry
      rw [batchReplay, replayEntry]
      simp only [hok]
      exact ih hrest

end Observation

/-- Entries of which one cannot be read have a first one. -/
theorem exists_first_unreadable {entries : List (UInt64 × List Datom)}
    (h : ¬ ∀ entry ∈ entries, Readable entry.2) :
    ∃ done epoch datoms rest, entries = done ++ (epoch, datoms) :: rest ∧
      (∀ entry ∈ done, Readable entry.2) ∧ ¬ Readable datoms := by
  induction entries with
  | nil => exact absurd (fun entry hentry => absurd hentry List.not_mem_nil) h
  | cons entry rest ih =>
      by_cases hentry : Readable entry.2
      · obtain ⟨done, epoch, datoms, later, rfl, hdone, hbad⟩ :=
          ih fun hrest => h (List.forall_mem_cons.mpr ⟨hentry, hrest⟩)
        exact ⟨entry :: done, epoch, datoms, later, rfl,
          List.forall_mem_cons.mpr ⟨hentry, hdone⟩, hbad⟩
      · exact ⟨[], entry.1, entry.2, rest, rfl,
          fun other hother => absurd hother List.not_mem_nil, hentry⟩

/-- There is one first entry that cannot be read. -/
theorem first_unreadable_unique {done done' rest rest' : List (UInt64 × List Datom)}
    {bad bad' : UInt64 × List Datom} (hdone : ∀ entry ∈ done, Readable entry.2)
    (hdone' : ∀ entry ∈ done', Readable entry.2) (hbad : ¬ Readable bad.2)
    (hbad' : ¬ Readable bad'.2) (h : done ++ bad :: rest = done' ++ bad' :: rest') :
    done = done' ∧ bad = bad' := by
  induction done generalizing done' with
  | nil =>
      cases done' with
      | nil =>
          cases h
          exact ⟨rfl, rfl⟩
      | cons first done' =>
          cases h
          exact absurd (hdone' _ List.mem_cons_self) hbad
  | cons first done ih =>
      cases done' with
      | nil =>
          cases h
          exact absurd (hdone _ List.mem_cons_self) hbad'
      | cons first' done' =>
          obtain ⟨rfl, hrest⟩ := List.cons.inj h
          obtain ⟨rfl, rfl⟩ :=
            ih (List.forall_mem_cons.mp hdone).2 (List.forall_mem_cons.mp hdone').2 hrest
          exact ⟨rfl, rfl⟩

/-- The schema is kept in all orders when what is installed last, and what the failing entry
defines, is there. -/
theorem evolve_kept_iff {lists : List (List Datom)} (hread : ∀ datoms ∈ lists, Readable datoms)
    {datoms : List Datom} (hbad : ¬ Readable datoms) (schema : Schema) :
    (∀ orders : Nat → IterOrder, (evolveSchema (orders lists.length)
      (evolveAll orders 0 schema lists) datoms).2 = schema) ↔
    (∀ attr d, LastDefines lists attr d → schema[attr]? = some d) ∧
      ∀ attr d, (attr, d) ∈ definitions datoms → schema[attr]? = some d := by
  constructor
  · intro hkept
    obtain ⟨first, hfirst⟩ := exists_evolveSchema_error hbad
    -- the orders of the entries before are free, since that of the failing one comes after them
    have hall (orders : Nat → IterOrder) : evolveAll orders 0 schema lists = schema := by
      have hsame := hkept (Function.update orders lists.length first)
      rw [Function.update_self, hfirst] at hsame
      rw [← evolveAll_congr (fun i hi => ?_) schema]
      · exact hsame
      · exact Function.update_of_ne (by omega) _ _
    refine ⟨fun attr d hlast => ?_, fun attr d hmem => ?_⟩
    · obtain ⟨orders, horders⟩ := exists_evolveAll hread hlast 0
      have hfound := horders schema
      rwa [hall] at hfound
    · obtain ⟨order, horder⟩ := exists_evolveSchema_before_error hbad hmem
      have hsame := hkept fun _ => order
      rw [hall, horder] at hsame
      rw [← hsame, Schema.getElem?_define, if_pos rfl]
  · rintro ⟨hlast, hdefs⟩ orders
    have hall : evolveAll orders 0 schema lists = schema := by
      refine OrdMap.ext fun attr => ?_
      rcases getElem?_evolveAll hread orders 0 schema attr with ⟨d, hd, hfound⟩ | ⟨-, hkept⟩
      · rw [hfound, hlast attr d hd]
      · exact hkept
    rw [hall]
    exact evolveSchema_of_present _ hdefs

/-- An epoch that the successor bounds from below is not the old one. -/
theorem ne_of_checkedSucc {epoch next last : UInt64} (h : checkedSucc epoch = some next)
    (hlast : next ≤ last) : last ≠ epoch :=
  ((lt_of_checkedSucc h).trans_le hlast).ne'

section Mutations

variable [Blake3]

/-- Entries whose replay fails and changes nothing: those up to the failing one repeat what the
store has, and the failing one has the store's epoch. -/
def ReplayInert (store : Store) (entries : List (UInt64 × List Datom)) : Prop :=
  ∃ done datoms rest, entries = done ++ (store.epoch, datoms) :: rest ∧
    (∀ entry ∈ done, Readable entry.2) ∧ ¬ Readable datoms ∧
    (∀ d ∈ done.flatMap Prod.snd ++ datoms, d ∈ store.datomSet) ∧
    (∀ attr d, LastDefines (done.map Prod.snd) attr d → store.schema[attr]? = some d) ∧
    ∀ attr d, (attr, d) ∈ definitions datoms → store.schema[attr]? = some d

namespace Store

variable {store : Store}

/-- The stamping loop does not take the epoch back. -/
theorem epoch_le_stampBatches (orders : Nat → IterOrder) (index : Nat) (store : Store)
    (batches : List (List Datom × TxId)) :
    store.epoch ≤ (stampBatches orders index store batches).2.epoch := by
  fun_induction stampBatches orders index store batches with
  | case1 => exact le_refl _
  | case2 => exact le_refl _
  | case3 => exact le_refl _
  | case4 index store datoms txId rest hne epoch hepoch => exact (lt_of_checkedSucc hepoch).le
  | case5 index store datoms txId rest hne epoch hepoch txDatoms evolved store₁ hok receipts
      store₂ hrest ih =>
      rw [hrest] at ih
      exact (lt_of_checkedSucc hepoch).le.trans ih
  | case6 index store datoms txId rest hne epoch hepoch txDatoms evolved store₁ hok e store₂
      hrest ih =>
      rw [hrest] at ih
      exact (lt_of_checkedSucc hepoch).le.trans ih

/-- A transaction that fails after its first two checks has a new epoch. -/
theorem transact_error_unchanged_iff {order : IterOrder} {transaction : Transaction}
    {ctx : TransactContext} {e : FerraError}
    (h : (transact order store transaction ctx).1 = .error e) :
    (transact order store transaction ctx).2.obs = store.obs ↔
      transaction.datoms = [] ∨ checkedSucc store.epoch = none := by
  unfold transact at h ⊢
  by_cases hempty : transaction.datoms.isEmpty = true
  · rw [if_pos hempty]
    exact ⟨fun _ => .inl (List.isEmpty_iff.mp hempty), fun _ => rfl⟩
  · have hne : transaction.datoms ≠ [] := fun hnil => hempty (List.isEmpty_iff.mpr hnil)
    rw [if_neg hempty] at h ⊢
    cases hsucc : checkedSucc store.epoch with
    | none => exact ⟨fun _ => .inr rfl, fun _ => rfl⟩
    | some epoch =>
        simp only [hsucc] at h ⊢
        split at h
        case h_1 hevolve =>
            refine ⟨fun hsame => ?_, ?_⟩
            · exact absurd (congrArg Observation.epoch hsame)
                (ne_of_checkedSucc hsucc (le_refl epoch))
            · rintro (hnil | hnone)
              · exact absurd hnil hne
              · cases hnone
        case h_2 => cases h

/-- The first transaction of a batch takes the epoch on. -/
theorem le_epoch_stampBatches_cons {datoms : List Datom} (hne : datoms ≠ []) {epoch : UInt64}
    (hsucc : checkedSucc store.epoch = some epoch) (orders : Nat → IterOrder) (index : Nat)
    (txId : TxId) (rest : List (List Datom × TxId)) :
    epoch ≤ (stampBatches orders index store ((datoms, txId) :: rest)).2.epoch := by
  rw [stampBatches, if_neg fun hempty => hne (List.isEmpty_iff.mp hempty), hsucc]
  rcases hevolve : evolveSchema (orders index) store.schema
    (stampAndAppendMetadata datoms txId) with ⟨_ | _, schema⟩
  · simp only [hevolve]
    exact le_refl epoch
  · simp only [hevolve]
    have hle := epoch_le_stampBatches orders (index + 1)
      { store with epoch := epoch, schema := schema } rest
    split
    case h_1 hrest =>
        rw [hrest] at hle
        exact hle
    case h_2 hrest =>
        rw [hrest] at hle
        exact hle

/-- A batch that fails after the first two checks of its first transaction has a new epoch. -/
theorem batch_error_unchanged_iff {orders : Nat → IterOrder} {batches : List (List Datom × TxId)}
    {e : FerraError} (h : (batchSpliceTransact orders store batches).1 = .error e) :
    (batchSpliceTransact orders store batches).2.obs = store.obs ↔
      (∃ txId rest, batches = ([], txId) :: rest) ∨ checkedSucc store.epoch = none := by
  cases batches with
  | nil => cases h
  | cons batch rest =>
      obtain ⟨datoms, txId⟩ := batch
      have hstamped : (batchSpliceTransact orders store ((datoms, txId) :: rest)).2 =
          (stampBatches orders 0 store ((datoms, txId) :: rest)).2 := by
        rw [batchSpliceTransact, if_neg (List.isEmpty_cons ▸ Bool.false_ne_true)] at h ⊢
        split at h
        case h_1 hstamp => rw [hstamp]
        case h_2 => cases h
      rw [hstamped]
      cases datoms with
      | nil => exact ⟨fun _ => .inl ⟨txId, rest, rfl⟩, fun _ => rfl⟩
      | cons d datoms =>
          cases hsucc : checkedSucc store.epoch with
          | none =>
              refine ⟨fun _ => .inr rfl, fun _ => ?_⟩
              rw [stampBatches, if_neg (List.isEmpty_cons ▸ Bool.false_ne_true), hsucc]
          | some epoch =>
              have hle :=
                le_epoch_stampBatches_cons (List.cons_ne_nil d datoms) hsucc orders 0 txId rest
              refine ⟨fun hsame => ?_, ?_⟩
              · exact absurd (congrArg Observation.epoch hsame) (ne_of_checkedSucc hsucc hle)
              · rintro (⟨_, _, hnil⟩ | hnone)
                · cases hnil
                · cases hnone

/-- A replay that fails changes nothing, in every order, when it repeats what the store has. -/
theorem replay_error_unchanged_iff (hvalid : store.obs.Valid)
    {entries : List (UInt64 × List Datom)}
    (h : ∃ orders e, (batchReplay orders store entries).1 = .error e) :
    (∀ orders, (batchReplay orders store entries).2.obs = store.obs) ↔
      ReplayInert store entries := by
  have hobs (orders : Nat → IterOrder) : (batchReplay orders store entries).2.obs =
      (store.obs.batchReplay orders 0 entries).2 :=
    congrArg Prod.snd (batchReplay_refines orders store entries).symm
  have hbad : ¬ ∀ entry ∈ entries, Readable entry.2 := by
    obtain ⟨orders, e, herror⟩ := h
    intro hall
    have hok : (store.obs.batchReplay orders 0 entries).1 = .ok () :=
      Observation.batchReplay_of_readable hall
    rw [batchReplay_refines, herror] at hok
    cases hok
  -- the replay stops at the first entry that cannot be read, with what came before it applied
  obtain ⟨done, epoch, datoms, rest, rfl, hdone, hunread⟩ := exists_first_unreadable hbad
  have hlists : ∀ list ∈ done.map Prod.snd, Readable list := List.forall_mem_map.mpr hdone
  have hkept := evolve_kept_iff hlists hunread store.schema
  rw [List.length_map] at hkept
  simp only [hobs, Observation.batchReplay_at_error hdone hunread, hvalid.commit_eq_self_iff,
    Nat.zero_add]
  constructor
  · intro hsame
    obtain ⟨hepoch, -, hmem⟩ := hsame fun _ => .arrival
    obtain rfl : epoch = store.epoch := hepoch
    obtain ⟨hlast, hdefs⟩ := hkept.mp fun orders => (hsame orders).2.1
    exact ⟨done, datoms, rest, rfl, hdone, hunread, hmem, hlast, hdefs⟩
  · rintro ⟨done', datoms', rest', hsplit, hdone', hunread', hmem, hlast, hdefs⟩
    obtain ⟨rfl, heq⟩ := first_unreadable_unique hdone hdone' hunread hunread' hsplit
    cases heq
    exact fun orders => ⟨rfl, hkept.mpr ⟨hlast, hdefs⟩ orders, hmem⟩

/-- An operation that fails leaves the store as it was if and only if it is a transaction that is
empty or meets the last epoch, a batch that begins with such a one, or a replay of what the store
has. -/
theorem failed_mutation_unchanged_iff (store : Store) :
    (∀ order transaction ctx e, (transact order store transaction ctx).1 = .error e →
      ((transact order store transaction ctx).2.obs = store.obs ↔
        transaction.datoms = [] ∨ checkedSucc store.epoch = none)) ∧
    (∀ orders batches e, (batchSpliceTransact orders store batches).1 = .error e →
      ((batchSpliceTransact orders store batches).2.obs = store.obs ↔
        (∃ txId rest, batches = ([], txId) :: rest) ∨ checkedSucc store.epoch = none)) ∧
    (Operated store → ∀ entries,
      (∃ orders e, (batchReplay orders store entries).1 = .error e) →
        ((∀ orders, (batchReplay orders store entries).2.obs = store.obs) ↔
          ReplayInert store entries)) :=
  ⟨fun _ _ _ _ => transact_error_unchanged_iff, fun _ _ _ => batch_error_unchanged_iff,
    fun h _ => replay_error_unchanged_iff h.valid⟩

end Store

end Mutations

namespace Sample

/-- One entity has two identifiers. -/
def contradicted : Transaction :=
  ⟨NodeId.zero,
    [⟨entity, "db/ident", .keyword "user/name", tx, .assert⟩,
     ⟨entity, "db/ident", .keyword "user/mail", tx, .assert⟩]⟩

/-- An entry that redefines `db/doc`, and one that cannot be read. -/
def refusedEntries : List (UInt64 × List Datom) :=
  [(1, redefineDoc.datoms), (1, contradicted.datoms)]

/-- The store that a replay of the entries leaves. -/
def refused : Store :=
  (Store.batchReplay (fun _ => .arrival) .genesis refusedEntries).2

/-- The sample transaction redefines `db/doc` as a reference. -/
theorem definitions_redefineDoc :
    definitions redefineDoc.datoms = [("db/doc", ⟨.ref, .one, .lww, none⟩)] := by
  decide +kernel

/-- A replay of the entries changes nothing in a store that has their datoms, the epoch of the
second and the definition of the first. -/
theorem replayInert_refusedEntries {store : Store} (hepoch : store.epoch = 1)
    (hmem : ∀ d ∈ redefineDoc.datoms ++ contradicted.datoms, d ∈ store.datomSet)
    (hdoc : store.schema["db/doc"]? = some ⟨.ref, .one, .lww, none⟩) :
    ReplayInert store refusedEntries := by
  have hread : (evolveSchema .arrival genesisSchema redefineDoc.datoms).1 = .ok () := by
    decide +kernel
  have hunread : (evolveSchema .arrival genesisSchema contradicted.datoms).1 ≠ .ok () := by
    decide +kernel
  have hnone : definitions contradicted.datoms = [] := by decide +kernel
  refine ⟨[(1, redefineDoc.datoms)], contradicted.datoms, [], ?_, fun entry hentry => ?_,
    fun hbad => hunread (evolveSchema_ok_iff.mpr hbad), hmem, fun attr d hlast => ?_,
    fun attr d hd => ?_⟩
  · rw [hepoch]
    rfl
  · rw [List.mem_singleton.mp hentry]
    exact evolveSchema_ok_iff.mp hread
  · obtain ⟨last, hlist, hd⟩ := hlast.exists_mem
    rw [List.mem_singleton.mp hlist, definitions_redefineDoc, List.mem_singleton] at hd
    cases hd
    exact hdoc
  · rw [hnone] at hd
    exact absurd hd List.not_mem_nil

/-- The replay of the refused entries fails and changes nothing in the refused store. -/
theorem replayInert_refused : ReplayInert refused refusedEntries :=
  replayInert_refusedEntries (by decide +kernel) (by decide +kernel) (by decide +kernel)

end Sample

open Sample

namespace Store

/-- An empty transaction is refused and changes nothing, alone and in front of a batch, and so is a
second replay of entries that were refused. -/
theorem failed_mutation_unchanged_refused :
    (transact .arrival refused ⟨NodeId.zero, []⟩ (batchContext tx)).2.obs = refused.obs ∧
      (batchSpliceTransact (fun _ => .arrival) refused
        [([], tx), (contradicted.datoms, tx)]).2.obs = refused.obs ∧
      ∀ orders, (batchReplay orders refused refusedEntries).2.obs = refused.obs := by
  have hiff := failed_mutation_unchanged_iff refused
  have hempty (store : Store) : (transact .arrival store ⟨NodeId.zero, []⟩ (batchContext tx)).1 =
      .error .emptyTransaction := rfl
  have hbatch (store : Store) : (batchSpliceTransact (fun _ => .arrival) store
      [([], tx), (contradicted.datoms, tx)]).1 = .error .emptyTransaction := rfl
  refine ⟨?_, ?_, ?_⟩
  · exact (hiff.1 _ _ _ _ (hempty refused)).mpr (.inl rfl)
  · exact (hiff.2.1 _ _ _ (hbatch refused)).mpr (.inl ⟨tx, _, rfl⟩)
  · have hoperated : Operated refused := .batchReplay (fun _ => .arrival) refusedEntries .genesis
    have hfails : (batchReplay (fun _ => .arrival) refused refusedEntries).1.isOk = false := by
      decide +kernel
    refine (hiff.2.2 hoperated refusedEntries ⟨fun _ => .arrival, ?_⟩).mpr replayInert_refused
    cases hresult : (batchReplay (fun _ => .arrival) refused refusedEntries).1 with
    | error e => exact ⟨e, rfl⟩
    | ok value =>
        rw [hresult] at hfails
        cases hfails

/-- A transaction with contradictory definitions is refused after the epoch has been taken on, alone
and in a batch. -/
theorem failed_mutation_changes :
    Reachable genesis ∧
      ((transact .arrival genesis contradicted (batchContext tx)).1.isOk = false ∧
        (transact .arrival genesis contradicted (batchContext tx)).2.epoch ≠ genesis.epoch) ∧
      (batchSpliceTransact (fun _ => .arrival) genesis [(contradicted.datoms, tx)]).1.isOk = false ∧
        (batchSpliceTransact (fun _ => .arrival) genesis [(contradicted.datoms, tx)]).2.epoch ≠
          genesis.epoch := by
  refine ⟨.genesis, ⟨?_, ?_⟩, ?_, ?_⟩
  · decide +kernel
  · decide +kernel
  · decide +kernel
  · decide +kernel

end Store

end Ferratomic
