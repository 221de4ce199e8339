import Ferratomic.Fingerprint
import Ferratomic.Store.Atomicity

/-!
# A batch replay and its entries one by one

Recovery replays the entries of a log with one promotion before and one demotion after them. Both
this and the replay of every entry by itself refine the replay on abstract stores
(`batchReplay_refines`, `replayAll_refines`), so they differ only in the iteration orders of schema
evolution: the main theorem, `batchReplay_eq_sequential_iff`, says when that shows.
-/

namespace Ferratomic

open Lib

/-- The epoch of the last entry, or the given one when there are none. -/
def lastEpoch (epoch : UInt64) (entries : List (UInt64 × List Datom)) : UInt64 :=
  entries.foldl (fun _ entry => entry.1) epoch

namespace Observation

variable {o : Observation} {entries : List (UInt64 × List Datom)}

/-- A replay that succeeds can read every entry. -/
theorem readable_of_batchReplay {orders : Nat → IterOrder} {index : Nat}
    (h : (o.batchReplay orders index entries).1 = .ok ()) :
    ∀ entry ∈ entries, Readable entry.2 := by
  induction entries generalizing o index with
  | nil => exact fun entry hentry => absurd hentry List.not_mem_nil
  | cons entry rest ih =>
      rw [batchReplay, replayEntry] at h
      rcases hevolve : evolveSchema (orders index) o.schema entry.2 with ⟨_ | _, schema⟩
      · simp only [hevolve] at h
        cases h
      · simp only [hevolve] at h
        exact List.forall_mem_cons.mpr ⟨evolveSchema_ok_iff.mp (congrArg Prod.fst hevolve), ih h⟩

/-- A replay that can read every entry commits their datoms with the last epoch. -/
theorem batchReplay_eq (h : ∀ entry ∈ entries, Readable entry.2) (orders : Nat → IterOrder)
    (index : Nat) :
    o.batchReplay orders index entries =
      (.ok (), o.commit (lastEpoch o.epoch entries)
        (evolveAll orders index o.schema (entries.map Prod.snd)) (entries.flatMap Prod.snd)) := by
  induction entries generalizing o index with
  | nil => rfl
  | cons entry rest ih =>
      obtain ⟨hentry, hrest⟩ := List.forall_mem_cons.mp h
      have hok : (evolveSchema (orders index) o.schema entry.2).1 = .ok () :=
        evolveSchema_ok_iff.mpr hentry
      rw [batchReplay, replayEntry]
      simp only [hok]
      rw [ih hrest, commit_commit]
      rfl

end Observation

section Replays

variable [Blake3]

namespace Store

variable {store : Store} {entries : List (UInt64 × List Datom)}

/-- The entries of a log by `replay_entry` one after the other, until one fails. -/
def replayAll (orders : Nat → IterOrder) (index : Nat) (store : Store) :
    List (UInt64 × List Datom) → Except FerraError Unit × Store
  | [] => (.ok (), store)
  | (epoch, datoms) :: rest =>
      match store.replayEntry (orders index) epoch datoms with
      | (.error e, store) => (.error e, store)
      | (.ok (), store) => replayAll orders (index + 1) store rest

/-- The replay computes on stores what it computes on observations. -/
theorem replayAll_refines (orders : Nat → IterOrder) (index : Nat) (store : Store)
    (entries : List (UInt64 × List Datom)) :
    store.obs.batchReplay orders index entries =
      ((replayAll orders index store entries).1, (replayAll orders index store entries).2.obs) := by
  induction entries generalizing index store with
  | nil => rfl
  | cons entry rest ih =>
      rw [Observation.batchReplay, replayEntry_refines, replayAll]
      rcases replayEntry (orders index) store entry.1 entry.2 with ⟨_ | _, replayed⟩
      · rfl
      · exact ih (index + 1) replayed

/-- A demoted store is positional. -/
theorem exists_positional_demote (store : Store) : ∃ ps, store.demote.repr = .positional ps := by
  unfold demote
  split
  case h_1 ps hrepr => exact ⟨ps, hrepr⟩
  case h_2 => exact ⟨_, rfl⟩

/-- A batch replay of entries that succeeds ends in the positional representation. -/
theorem exists_positional_batchReplay {orders : Nat → IterOrder} (hne : entries ≠ [])
    (h : (batchReplay orders store entries).1 = .ok ()) :
    ∃ ps, (batchReplay orders store entries).2.repr = .positional ps := by
  rw [batchReplay, if_neg fun hempty => hne (List.isEmpty_iff.mp hempty)] at h ⊢
  split at h
  case h_1 => cases h
  case h_2 replayed hreplayed => exact replayed.exists_positional_demote

/-- The fingerprint of a positional store is the sum over its datom set. -/
theorem fingerprint_eq_sum {ps : PositionalStore} (h : store.repr = .positional ps) :
    ps.fingerprint = ∑ d ∈ store.datomSet, d.contentHash := by
  rw [ps.fingerprint_eq, computeFingerprint_toFinset ps.sorted, datomSet, h]
  rfl

/-- A batch replay and the replay of its entries one by one, in iteration orders of their own: both
succeed and leave the same, and the batch ends with an array and the fingerprint of its datoms. -/
structure SameReplay (orders others : Nat → IterOrder) (store : Store)
    (entries : List (UInt64 × List Datom)) : Prop where
  batch : (batchReplay orders store entries).1 = .ok ()
  sequential : (replayAll others 0 store entries).1 = .ok ()
  datomSet : (batchReplay orders store entries).2.datomSet =
    (replayAll others 0 store entries).2.datomSet
  epoch : (batchReplay orders store entries).2.epoch = (replayAll others 0 store entries).2.epoch
  schema : (batchReplay orders store entries).2.schema =
    (replayAll others 0 store entries).2.schema
  liveCausal : (batchReplay orders store entries).2.liveCausal =
    (replayAll others 0 store entries).2.liveCausal
  liveSet : (batchReplay orders store entries).2.liveSet =
    (replayAll others 0 store entries).2.liveSet
  positional : entries ≠ [] → ∃ ps, (batchReplay orders store entries).2.repr = .positional ps ∧
    ps.fingerprint = ∑ d ∈ (batchReplay orders store entries).2.datomSet, d.contentHash

/-- Two replays that can read every entry leave the same when the schema evolves alike. -/
theorem sameReplay_iff (hread : ∀ entry ∈ entries, Readable entry.2)
    (orders others : Nat → IterOrder) :
    SameReplay orders others store entries ↔
      evolveAll orders 0 store.schema (entries.map Prod.snd) =
        evolveAll others 0 store.schema (entries.map Prod.snd) := by
  -- both replays are one commit, whose schemas alone can differ
  have hbatch := (batchReplay_refines orders store entries).symm.trans
    (Observation.batchReplay_eq hread orders 0)
  have hsequential := (replayAll_refines others 0 store entries).symm.trans
    (Observation.batchReplay_eq hread others 0)
  obtain ⟨hok, hobs⟩ := Prod.mk.inj hbatch
  obtain ⟨hok', hobs'⟩ := Prod.mk.inj hsequential
  constructor
  · intro hsame
    exact (congrArg Observation.schema hobs).symm.trans
      (hsame.schema.trans (congrArg Observation.schema hobs'))
  · intro hschema
    have hboth : (batchReplay orders store entries).2.obs =
        (replayAll others 0 store entries).2.obs := by
      rw [hobs, hobs']
      exact congrArg (fun schema => store.obs.commit _ schema _) hschema
    exact {
      batch := hok
      sequential := hok'
      datomSet := congrArg Observation.datomSet hboth
      epoch := congrArg Observation.epoch hboth
      schema := congrArg Observation.schema hboth
      liveCausal := congrArg Observation.liveCausal hboth
      liveSet := congrArg Observation.liveSet hboth
      positional := fun hne => by
        obtain ⟨ps, hrepr⟩ := exists_positional_batchReplay hne hok
        exact ⟨ps, hrepr, fingerprint_eq_sum hrepr⟩ }

/-- A batch replay that succeeds and the replay of its entries one by one leave the same, whatever
the iteration orders of the two are, if and only if the last entry that defines an attribute defines
it in one way. -/
theorem batchReplay_eq_sequential_iff
    (h : ∃ orders, (batchReplay orders store entries).1 = .ok ()) :
    (∀ orders others, SameReplay orders others store entries) ↔
      ∀ attr d d', LastDefines (entries.map Prod.snd) attr d →
        LastDefines (entries.map Prod.snd) attr d' → d = d' := by
  obtain ⟨orders, hok⟩ := h
  have hobs : (store.obs.batchReplay orders 0 entries).1 = .ok () := by
    rw [batchReplay_refines, hok]
  have hread := Observation.readable_of_batchReplay hobs
  rw [← evolveAll_eq_iff (List.forall_mem_map.mpr hread) 0 store.schema]
  simp only [sameReplay_iff hread]

end Store

end Replays

namespace Sample

/-- Two entries that define nothing. -/
def inertEntries : List (UInt64 × List Datom) :=
  [(1, [asserted]), (2, [retracted])]

/-- The sample entries are replayed. -/
theorem batchReplay_inertEntries :
    ∃ orders, (Store.batchReplay orders .genesis inertEntries).1 = .ok () := by
  refine ⟨fun _ => .arrival, ?_⟩
  rw [← congrArg Prod.fst (Store.batchReplay_refines (fun _ => .arrival) .genesis inertEntries)]
  refine Observation.batchReplay_of_readable fun entry hentry group hgroup => ⟨none, ?_⟩
  have hnone : ∀ entry ∈ inertEntries, ∀ group ∈ groupByEntity entry.2,
      extractAttributeDef group = .ok none := by decide +kernel
  exact hnone entry hentry group hgroup

/-- The sample entries define no attribute. -/
theorem definitions_inertEntries :
    ∀ datoms ∈ inertEntries.map Prod.snd, definitions datoms = [] := by
  decide +kernel

end Sample

open Sample

namespace Store

/-- Two entries without definitions, in the orders of first and of last arrival. -/
theorem batchReplay_eq_sequential_inert :
    (∃ orders, (batchReplay orders genesis inertEntries).1 = .ok ()) ∧
      SameReplay (fun _ => .arrival) (fun _ => lastArrival) genesis inertEntries := by
  refine ⟨batchReplay_inertEntries, ?_⟩
  refine (batchReplay_eq_sequential_iff batchReplay_inertEntries).mpr (fun attr d d' hd => ?_) _ _
  obtain ⟨last, hlast, hmem⟩ := hd.exists_mem
  rw [definitions_inertEntries last hlast] at hmem
  exact absurd hmem List.not_mem_nil

/-- Two entities of one entry define one attribute: batch and entry are replayed with success and
leave different schemas when their hash maps visit the entities in different orders. -/
theorem batchReplay_ne_sequential :
    (batchReplay (fun _ => .arrival) genesis [(1, defineTwice.datoms)]).1.isOk = true ∧
      (batchReplay (fun _ => .arrival) genesis [(1, defineTwice.datoms)]).2.schema ≠
        (replayAll (fun _ => lastArrival) 0 genesis [(1, defineTwice.datoms)]).2.schema := by
  have hok : (batchReplay (fun _ => .arrival) genesis
      [(1, defineTwice.datoms)]).1.isOk = true := by decide +kernel
  have hlong : (batchReplay (fun _ => .arrival) genesis
      [(1, defineTwice.datoms)]).2.schema["user/name"]? = some ⟨.long, .one, .lww, none⟩ := by
    decide +kernel
  have hstring : (replayAll (fun _ => lastArrival) 0 genesis
      [(1, defineTwice.datoms)]).2.schema["user/name"]? = some ⟨.string, .one, .lww, none⟩ := by
    decide +kernel
  refine ⟨hok, fun heq => ?_⟩
  rw [heq, hstring] at hlong
  exact absurd (Option.some.inj hlong) (by decide)

end Store

end Ferratomic
