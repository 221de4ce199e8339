import Ferratomic.Blake3
import Ferratomic.Store.Reachable

/-!
# Convergence

Stores that merge reach the same state. `fromMerge_semilattice` gives the laws of a join
semilattice on everything observable. Whether the LIVE maps are a function of the datom set
depends on ties: when the latest transaction of a triple carries both an assertion and a
retraction, the three ways of computing the maps pick different winners. `live_function_iff`
says exactly when they agree. `fromMerge_stale` is what merging with an earlier state of the
same store does.
-/

namespace Ferratomic

open Lib Datom

section Ties

/-- The datom of a triple at a transaction with an operation. -/
def factOf (key : LiveKey) (value : Value) (tx : TxId) (op : Op) : Datom :=
  ⟨(ofLex key).1, (ofLex key).2, value, tx, op⟩

/-- A datom is the fact of its key, value and event. -/
theorem factOf_event {d : Datom} {key : LiveKey} {value : Value} {event : LiveEvent}
    (hkey : d.liveKey = key) (hvalue : d.value = value) (hevent : d.event = event) :
    d = factOf key value (ofLex event).1 (ofLex event).2 := by
  subst hkey hvalue hevent
  rfl

/-- A fact has the key it is made of. -/
@[simp]
theorem liveKey_factOf (key : LiveKey) (value : Value) (tx : TxId) (op : Op) :
    (factOf key value tx op).liveKey = key := rfl

/-- The transaction is the latest of the triple in the datom set. -/
def Latest (datoms : Finset Datom) (key : LiveKey) (value : Value) (tx : TxId) : Prop :=
  ∀ d ∈ datoms, d.liveKey = key → d.value = value → d.tx ≤ tx

/-- The latest transaction of the triple both asserts and retracts it. -/
def LatestTied (datoms : Finset Datom) (key : LiveKey) (value : Value) : Prop :=
  ∃ tx, Latest datoms key value tx ∧ factOf key value tx .assert ∈ datoms ∧
    factOf key value tx .retract ∈ datoms

/-- The set has the retraction of the triple at the transaction, but not the assertion. -/
def OnlyRetracts (datoms : Finset Datom) (key : LiveKey) (value : Value) (tx : TxId) : Prop :=
  factOf key value tx .retract ∈ datoms ∧ factOf key value tx .assert ∉ datoms

/-- A recorded event is a fact of the set at its latest transaction. -/
theorem CausalOf.event_spec {datoms : Finset Datom} {causal : LiveCausal}
    (h : CausalOf datoms causal) {key : LiveKey} {value : Value} {event : LiveEvent}
    (hevent : OrdMap.get₂ causal key value = some event) :
    factOf key value (ofLex event).1 (ofLex event).2 ∈ datoms ∧
      Latest datoms key value (ofLex event).1 := by
  obtain ⟨d, hd, hkey, hvalue, heq⟩ := h.sound key value event hevent
  refine ⟨factOf_event hkey hvalue heq ▸ hd, fun d' hd' hkey' hvalue' => ?_⟩
  obtain ⟨event', hevent', hle⟩ := h.latest d' hd'
  rw [hkey', hvalue', hevent] at hevent'
  cases hevent'
  exact hle

/-- A fact of the set at the latest transaction has an event at that transaction. -/
theorem CausalOf.event_of_latest {datoms : Finset Datom} {causal : LiveCausal}
    (h : CausalOf datoms causal) {key : LiveKey} {value : Value} {tx : TxId} {op : Op}
    (hfact : factOf key value tx op ∈ datoms) (hlatest : Latest datoms key value tx) :
    ∃ op', OrdMap.get₂ causal key value = some (toLex (tx, op')) := by
  obtain ⟨event, hevent, hle⟩ := h.latest _ hfact
  have hmem := (h.event_spec hevent).1
  have hge : (ofLex event).1 ≤ tx := hlatest _ hmem rfl rfl
  have htx : (ofLex event).1 = tx := le_antisymm hge hle
  refine ⟨(ofLex event).2, ?_⟩
  rw [← htx]
  exact hevent

/-- Two causal maps of one datom set have events at the same transactions. -/
theorem CausalOf.agree {datoms : Finset Datom} {a b : LiveCausal} (ha : CausalOf datoms a)
    (hb : CausalOf datoms b) {key : LiveKey} {value : Value} {event : LiveEvent}
    (hevent : OrdMap.get₂ a key value = some event) :
    ∃ op, OrdMap.get₂ b key value = some (toLex ((ofLex event).1, op)) :=
  hb.event_of_latest (ha.event_spec hevent).1 (ha.event_spec hevent).2

/-- Two causal maps of one datom set are equal when no event of one differs from the other's in
its operation. -/
theorem CausalOf.ext {datoms : Finset Datom} {a b : LiveCausal} (ha : CausalOf datoms a)
    (hb : CausalOf datoms b)
    (hop : ∀ key value tx op op', OrdMap.get₂ a key value = some (toLex (tx, op)) →
      OrdMap.get₂ b key value = some (toLex (tx, op')) → op = op') : a = b := by
  refine OrdMap.ext₂ ha.noEmpty hb.noEmpty fun key value => ?_
  cases hget : OrdMap.get₂ a key value with
  | none =>
      cases hget' : OrdMap.get₂ b key value with
      | none => rfl
      | some event =>
          obtain ⟨op, hsome⟩ := hb.agree ha hget'
          rw [hget] at hsome
          cases hsome
  | some event =>
      obtain ⟨op, hsome⟩ := ha.agree hb hget
      rw [hsome, ← hop key value _ _ _ hget hsome]
      rfl

end Ties

section Rebuild

/-- Among datoms of one triple and transaction the assertion sorts before the retraction. -/
theorem factOf_assert_lt_retract (key : LiveKey) (value : Value) (tx : TxId) :
    factOf key value tx .assert < factOf key value tx .retract := by
  have hop : Op.assert < Op.retract := by decide
  show Datom.sortKey _ < Datom.sortKey _
  simp only [Datom.sortKey, factOf, Prod.Lex.toLex_lt_toLex, lt_self_iff_false, true_and,
    false_or, hop]

/-- Over an ascending array the rebuild records the assertion of a tied transaction. -/
theorem buildLiveCausal_prefers_assert {items : List Datom} (hsorted : items.Pairwise (· < ·))
    {key : LiveKey} {value : Value} {tx : TxId} {op : Op}
    (hget : OrdMap.get₂ (buildLiveCausal items) key value = some (toLex (tx, op)))
    (hassert : factOf key value tx .assert ∈ items) : op = .assert := by
  induction items using List.reverseRecOn generalizing op with
  | nil => cases hassert
  | append_singleton items d ih =>
      obtain ⟨hfront, -, hlast⟩ := List.pairwise_append.mp hsorted
      have hspec := causalOf_buildLiveCausal items
      rw [buildLiveCausal_eq, List.foldl_append, ← buildLiveCausal_eq, List.foldl_cons,
        List.foldl_nil, get₂_recordEvent] at hget
      split at hget
      case isTrue hc =>
          -- The new datom supersedes every earlier event, so the assertion is the new datom.
          obtain ⟨⟨hkey, hvalue⟩, hsup⟩ := hc
          have heq : d.tx = tx ∧ d.op = op := by
            simpa [Datom.event] using hget
          rcases List.mem_append.mp hassert with hold | hnew
          · obtain ⟨event, hevent, hle⟩ := hspec.latest _ (List.mem_toFinset.mpr hold)
            have hlt := hsup event (by rw [hkey, hvalue]; exact hevent)
            rw [heq.1] at hlt
            exact absurd hle (not_le.mpr hlt)
          · rw [List.mem_singleton] at hnew
            rw [← heq.2, ← hnew]
            rfl
      case isFalse hc =>
          rcases List.mem_append.mp hassert with hold | hnew
          · exact ih hfront hget hold
          · -- The event was recorded before its assertion arrived; order rules out a retraction.
            rw [List.mem_singleton] at hnew
            have hmem := (hspec.event_spec hget).1
            have hlt := hlast _ (List.mem_toFinset.mp hmem) d (List.mem_singleton_self d)
            cases op with
            | assert => rfl
            | retract =>
                rw [← hnew] at hlt
                exact absurd hlt (not_lt.mpr (factOf_assert_lt_retract key value tx).le)

/-- The rebuild over a datom set. -/
def buildOf (datoms : Finset Datom) : LiveCausal :=
  buildLiveCausal (datoms.sort (· ≤ ·))

/-- The map built from datoms is the causal map of these. -/
theorem causalOf_buildOf (datoms : Finset Datom) : CausalOf datoms (buildOf datoms) := by
  have h := causalOf_buildLiveCausal (datoms.sort (· ≤ ·))
  rwa [Finset.sort_toFinset] at h

/-- The rebuild records an assertion at a tied transaction. -/
theorem buildOf_prefers_assert {datoms : Finset Datom} {key : LiveKey} {value : Value} {tx : TxId}
    {op : Op} (hget : OrdMap.get₂ (buildOf datoms) key value = some (toLex (tx, op)))
    (hassert : factOf key value tx .assert ∈ datoms) : op = .assert :=
  buildLiveCausal_prefers_assert (Finset.sortedLT_sort datoms).pairwise hget
    ((Finset.mem_sort _).mpr hassert)

/-- The rebuild of a set that only retracts a triple at its latest transaction. -/
theorem buildOf_of_onlyRetracts {datoms : Finset Datom} {key : LiveKey} {value : Value}
    {tx : TxId} (honly : OnlyRetracts datoms key value tx) (hlatest : Latest datoms key value tx) :
    OrdMap.get₂ (buildOf datoms) key value = some (toLex (tx, .retract)) := by
  obtain ⟨op, hop⟩ := (causalOf_buildOf datoms).event_of_latest honly.1 hlatest
  cases op with
  | retract => exact hop
  | assert => exact absurd ((causalOf_buildOf datoms).event_spec hop).1 honly.2

/-- The rebuild of a set that asserts a triple at its latest transaction. -/
theorem buildOf_of_assert {datoms : Finset Datom} {key : LiveKey} {value : Value} {tx : TxId}
    (hassert : factOf key value tx .assert ∈ datoms) (hlatest : Latest datoms key value tx) :
    OrdMap.get₂ (buildOf datoms) key value = some (toLex (tx, .assert)) := by
  obtain ⟨op, hop⟩ := (causalOf_buildOf datoms).event_of_latest hassert hlatest
  rw [hop, buildOf_prefers_assert hop hassert]

/-- Merging rebuilt maps keeps the retraction that one of the sets has alone. -/
theorem mergeCausal_buildOf_of_onlyRetracts {A B : Finset Datom} {key : LiveKey} {value : Value}
    {tx : TxId} (hlatest : Latest (A ∪ B) key value tx) (honly : OnlyRetracts A key value tx) :
    OrdMap.get₂ (mergeCausal (buildOf A) (buildOf B)) key value ≠
      some (toLex (tx, .assert)) := by
  have hA : Latest A key value tx := fun d hd => hlatest d (Finset.mem_union_left B hd)
  have hop : Op.assert < Op.retract := by decide
  have hlt : (toLex (tx, Op.assert) : LiveEvent) < toLex (tx, Op.retract) :=
    Prod.Lex.toLex_lt_toLex.mpr (.inr ⟨rfl, hop⟩)
  rw [mergeCausal, OrdMap.get₂_unionWith, buildOf_of_onlyRetracts honly hA]
  cases OrdMap.get₂ (buildOf B) key value with
  | none =>
      intro h
      exact absurd (Option.some.inj h) hlt.ne'
  | some event =>
      intro h
      exact absurd (Option.some.inj h) (lt_of_lt_of_le hlt (le_max_left _ event)).ne'

/-- The transaction is the latest of a triple that the union asserts, and one of the sets has
only its retraction. -/
def SplitTie (A B : Finset Datom) (key : LiveKey) (value : Value) (tx : TxId) : Prop :=
  Latest (A ∪ B) key value tx ∧ factOf key value tx .assert ∈ A ∪ B ∧
    (OnlyRetracts A key value tx ∨ OnlyRetracts B key value tx)

/-- The merge of rebuilt maps is the rebuild of the union exactly when no tie is split. -/
theorem mergeCausal_buildOf_eq_iff (A B : Finset Datom) :
    mergeCausal (buildOf A) (buildOf B) = buildOf (A ∪ B) ↔
      ∀ key value tx, ¬SplitTie A B key value tx := by
  constructor
  · intro heq key value tx ⟨hlatest, hassert, honly⟩
    have hbuild := buildOf_of_assert hassert hlatest
    rcases honly with hA | hB
    · exact mergeCausal_buildOf_of_onlyRetracts hlatest hA (heq ▸ hbuild)
    · rw [Finset.union_comm] at hlatest
      rw [mergeCausal_comm] at heq
      exact mergeCausal_buildOf_of_onlyRetracts hlatest hB (heq ▸ hbuild)
  · intro hno
    refine ((causalOf_buildOf A).mergeCausal (causalOf_buildOf B)).ext
      (causalOf_buildOf (A ∪ B)) fun key value tx op op' hmerge hbuild => ?_
    have hfact := ((causalOf_buildOf (A ∪ B)).event_spec hbuild).1
    have hlatest := ((causalOf_buildOf (A ∪ B)).event_spec hbuild).2
    by_cases hassert : factOf key value tx .assert ∈ A ∪ B
    · rw [buildOf_prefers_assert hbuild hassert]
      cases op with
      | assert => rfl
      | retract =>
          -- A recorded retraction comes from one of the two maps, which prefers assertions.
          have hside : ∀ S : Finset Datom,
              OrdMap.get₂ (buildOf S) key value = some (toLex (tx, .retract)) →
                OnlyRetracts S key value tx := fun S hS =>
            ⟨((causalOf_buildOf S).event_spec hS).1, fun hin => by
              cases buildOf_prefers_assert hS hin⟩
          rw [mergeCausal, OrdMap.get₂_unionWith] at hmerge
          rcases Option.merge_eq_some_iff.mp hmerge with ⟨hl, -⟩ | ⟨-, hr⟩ | ⟨x, y, hx, hy, hmax⟩
          · exact absurd ⟨hlatest, hassert, .inl (hside A hl)⟩ (hno key value tx)
          · exact absurd ⟨hlatest, hassert, .inr (hside B hr)⟩ (hno key value tx)
          · rcases max_choice x y with h | h
            · rw [h] at hmax
              rw [hmax] at hx
              exact absurd ⟨hlatest, hassert, .inl (hside A hx)⟩ (hno key value tx)
            · rw [h] at hmax
              rw [hmax] at hy
              exact absurd ⟨hlatest, hassert, .inr (hside B hy)⟩ (hno key value tx)
    · have hmem := (((causalOf_buildOf A).mergeCausal (causalOf_buildOf B)).event_spec hmerge).1
      cases op with
      | assert => exact absurd hmem hassert
      | retract =>
          cases op' with
          | assert => exact absurd hfact hassert
          | retract => rfl

end Rebuild

namespace Store

variable [Blake3]

/-- The LIVE state of two stores agrees, as maps and for every query. -/
structure SameLive (a b : Store) : Prop where
  causal : a.liveCausal = b.liveCausal
  set : a.liveSet = b.liveSet
  values : ∀ entity attr, a.liveValues entity attr = b.liveValues entity attr
  resolve : ∀ entity attr, a.liveResolve entity attr = b.liveResolve entity attr

/-- Stores that keep the invariant and have equal causal maps answer every query alike. -/
theorem sameLive_of_causal {a b : Store} (ha : a.obs.Valid) (hb : b.obs.Valid)
    (h : a.liveCausal = b.liveCausal) : a.SameLive b := by
  have hset : a.liveSet = b.liveSet := by
    have hl : a.liveSet = deriveLiveSet a.liveCausal := ha.live
    have hr : b.liveSet = deriveLiveSet b.liveCausal := hb.live
    rw [hl, hr, h]
  exact ⟨h, hset, fun _ _ => by rw [liveValues, liveValues, hset],
    fun _ _ => by rw [liveResolve, liveResolve, h]⟩

/-- A store built from datoms has the causal map built from them. -/
@[simp]
theorem liveCausal_fromDatoms (datoms : Finset Datom) :
    (fromDatoms datoms).liveCausal = buildOf datoms := by
  have hcanon : (PositionalStore.fromDatoms (datoms.sort (· ≤ ·))).canonical =
      datoms.sort (· ≤ ·) := by
    have h := sortDedup_eq_sort (datoms.sort (· ≤ ·))
    rwa [Finset.sort_toFinset] at h
  show buildLiveCausal (PositionalStore.fromDatoms (datoms.sort (· ≤ ·))).canonical = _
  rw [hcanon, buildOf]

/-- A store built from datoms has the LIVE set derived from them. -/
@[simp]
theorem liveSet_fromDatoms (datoms : Finset Datom) :
    (fromDatoms datoms).liveSet = deriveLiveSet (buildOf datoms) := by
  rw [← liveCausal_fromDatoms]
  rfl

section Merge

/-- Merging reachable stores is a join: the datom set is the union, and on everything observable
the merge is commutative, associative and idempotent. -/
theorem fromMerge_semilattice {a b c : Store} (ha : Reachable a) (_hb : Reachable b)
    (_hc : Reachable c) :
    (fromMerge a b).datomSet = a.datomSet ∪ b.datomSet ∧
      (fromMerge a b).obs = (fromMerge b a).obs ∧
      (fromMerge (fromMerge a b) c).obs = (fromMerge a (fromMerge b c)).obs ∧
      (fromMerge a a).obs = a.obs := by
  refine ⟨?_, ?_, ?_, ?_⟩
  · exact congrArg Observation.datomSet (obs_fromMerge a b)
  · rw [obs_fromMerge, obs_fromMerge, Observation.merge_comm]
  · rw [obs_fromMerge, obs_fromMerge, obs_fromMerge, obs_fromMerge, Observation.merge_assoc]
  · rw [obs_fromMerge, ha.valid.merge_self]

end Merge

end Store

namespace Sample

/-- The entity of the sample facts. -/
def entity : EntityId := EntityId.fromContent [1]

/-- The transaction of the sample facts. -/
def tx : TxId := ⟨1, 0, NodeId.zero⟩

/-- A documentation text is asserted. -/
def asserted : Datom := ⟨entity, "db/doc", .string "x", tx, .assert⟩

/-- The same text is retracted by the same transaction. -/
def retracted : Datom := ⟨entity, "db/doc", .string "x", tx, .retract⟩

end Sample

open Sample

namespace Store

/-- The laws at an empty store, a write-active one and a contiguous one. -/
theorem fromMerge_semilattice_sample :
    (fromMerge genesis (fromDatoms {asserted}).promote).datomSet =
        genesis.datomSet ∪ (fromDatoms {asserted}).promote.datomSet ∧
      (fromMerge genesis (fromDatoms {asserted}).promote).obs =
        (fromMerge (fromDatoms {asserted}).promote genesis).obs ∧
      (fromMerge (fromMerge genesis (fromDatoms {asserted}).promote)
        (fromDatoms {retracted})).obs =
        (fromMerge genesis (fromMerge (fromDatoms {asserted}).promote
          (fromDatoms {retracted}))).obs ∧
      (fromMerge genesis genesis).obs = genesis.obs :=
  fromMerge_semilattice .genesis (.promote (.fromDatoms {asserted})) (.fromDatoms {retracted})

variable [Blake3]

section Live

/-- The LIVE state is a function of the datom set exactly where no latest transaction of the set
both asserts and retracts a triple; and merging rebuilt causal maps is the rebuild of the union
exactly where no such tie is split between the two sets. -/
theorem live_function_iff :
    (∀ datoms : Finset Datom,
      (∀ a b : Store, Reachable a → Reachable b → a.datomSet = datoms → b.datomSet = datoms →
        a.SameLive b) ↔ ∀ key value, ¬LatestTied datoms key value) ∧
      ∀ A B : Finset Datom, mergeCausal (buildOf A) (buildOf B) = buildOf (A ∪ B) ↔
        ∀ key value tx, ¬SplitTie A B key value tx := by
  refine ⟨fun datoms => ⟨fun hsame key value htied => ?_, fun hno a b ha hb hda hdb => ?_⟩,
    mergeCausal_buildOf_eq_iff⟩
  · -- A tie is resolved as an assertion by a rebuild, as a retraction by a merge.
    obtain ⟨tx, hlatest, hassert, hretract⟩ := htied
    let retracting := datoms.erase (factOf key value tx .assert)
    have hunion : retracting ∪ datoms = datoms :=
      Finset.union_eq_right.mpr (Finset.erase_subset _ _)
    have honly : OnlyRetracts retracting key value tx :=
      ⟨Finset.mem_erase.mpr ⟨(factOf_assert_lt_retract key value tx).ne', hretract⟩,
        Finset.notMem_erase _ _⟩
    have hsets : (fromMerge (fromDatoms retracting) (fromDatoms datoms)).datomSet = datoms := by
      have h := congrArg Observation.datomSet
        (obs_fromMerge (fromDatoms retracting) (fromDatoms datoms))
      simpa [obs, Observation.merge, hunion] using h
    have hcausal := (hsame _ _ (.fromMerge (.fromDatoms retracting) (.fromDatoms datoms))
      (.fromDatoms datoms) hsets (datomSet_fromDatoms datoms)).causal
    have hmerged : (fromMerge (fromDatoms retracting) (fromDatoms datoms)).liveCausal =
        mergeCausal (buildOf retracting) (buildOf datoms) := by
      rw [fromMerge, liveCausal_fromDatoms, liveCausal_fromDatoms]
    rw [hmerged, liveCausal_fromDatoms] at hcausal
    have hbuild := buildOf_of_assert hassert hlatest
    rw [← hcausal] at hbuild
    refine mergeCausal_buildOf_of_onlyRetracts ?_ honly hbuild
    rwa [hunion]
  · have hca : CausalOf datoms a.liveCausal := hda ▸ ha.valid.causal
    have hcb : CausalOf datoms b.liveCausal := hdb ▸ hb.valid.causal
    refine sameLive_of_causal ha.valid hb.valid
      (hca.ext hcb fun key value tx op op' hl hr => ?_)
    have hfact := (hca.event_spec hl).1
    have hfact' := (hcb.event_spec hr).1
    have hlatest := (hca.event_spec hl).2
    cases op with
    | assert =>
        cases op' with
        | assert => rfl
        | retract => exact absurd ⟨tx, hlatest, hfact, hfact'⟩ (hno key value)
    | retract =>
        cases op' with
        | assert => exact absurd ⟨tx, hlatest, hfact', hfact⟩ (hno key value)
        | retract => rfl

end Live

end Store

namespace Store

/-- Two reachable stores with one datom set, a tie: the rebuilt store shows the value as LIVE,
the merged one does not. -/
theorem live_tie_counterexample :
    Reachable (fromDatoms {asserted, retracted}) ∧
      Reachable (fromMerge (fromDatoms {retracted}) (fromDatoms {asserted})) ∧
      (fromDatoms {asserted, retracted}).datomSet =
        (fromMerge (fromDatoms {retracted}) (fromDatoms {asserted})).datomSet ∧
      (fromDatoms {asserted, retracted}).liveValues entity "db/doc" = some {.string "x"} ∧
      (fromMerge (fromDatoms {retracted}) (fromDatoms {asserted})).liveValues entity "db/doc" =
        none ∧
      mergeCausal (buildOf {retracted}) (buildOf {asserted}) ≠
        buildOf ({retracted} ∪ {asserted}) := by
  have hboth : buildOf {asserted, retracted} = buildLiveCausal [asserted, retracted] := by
    have hset : ({asserted, retracted} : Finset Datom) = [asserted, retracted].toFinset := by
      simp
    have hsorted : sortDedup [asserted, retracted] = [asserted, retracted] := by
      decide +kernel
    rw [buildOf, hset, ← sortDedup_eq_sort, hsorted]
  have hunion : ({retracted} ∪ {asserted} : Finset Datom) = {asserted, retracted} := by
    ext d
    simp [or_comm]
  refine ⟨.fromDatoms _, .fromMerge (.fromDatoms _) (.fromDatoms _), ?_, ?_, ?_, ?_⟩
  · have h := congrArg Observation.datomSet
      (obs_fromMerge (fromDatoms {retracted}) (fromDatoms {asserted}))
    simpa [obs, Observation.merge, hunion] using h.symm
  · rw [liveValues, liveSet_fromDatoms, hboth]
    decide +kernel
  · rw [liveValues, fromMerge, liveCausal_fromDatoms, liveCausal_fromDatoms, buildOf, buildOf,
      Finset.sort_singleton, Finset.sort_singleton]
    decide +kernel
  · rw [hunion, hboth, buildOf, buildOf, Finset.sort_singleton, Finset.sort_singleton]
    intro heq
    have hlookup := congrArg
      (fun causal => OrdMap.get₂ causal asserted.liveKey (.string "x")) heq
    revert hlookup
    decide +kernel

end Store

section Absorb

/-- Recording an event does not lower any recorded event. -/
theorem mergeCausal_recordEvent {causal : LiveCausal} (h : OrdMap.NoEmpty causal) (d : Datom) :
    mergeCausal (recordEvent causal d) causal = recordEvent causal d := by
  have hrecord : OrdMap.NoEmpty (recordEvent causal d) := by
    unfold recordEvent
    split
    · exact h.insert₂ _ _ _
    · exact h
  refine OrdMap.ext₂ (hrecord.unionWith h) hrecord fun key value => ?_
  rw [mergeCausal, OrdMap.get₂_unionWith, get₂_recordEvent]
  split
  case isTrue hc =>
      obtain ⟨⟨hkey, hvalue⟩, hsup⟩ := hc
      cases hget : OrdMap.get₂ causal key value with
      | none => rfl
      | some event =>
          have hlt : (ofLex event).1 < d.tx := hsup event (by rw [hkey, hvalue]; exact hget)
          have hevent : event < d.event := Prod.Lex.lt_iff.mpr (.inl hlt)
          rw [Option.merge_some_some, max_eq_left hevent.le]
  case isFalse =>
      rw [(Option.idempotentOp_merge max).idempotent]

/-- Absorption of causal maps is transitive. -/
theorem mergeCausal_absorb_trans {a b c : LiveCausal} (hab : mergeCausal b a = b)
    (hbc : mergeCausal c b = c) : mergeCausal c a = c :=
  calc mergeCausal c a = mergeCausal (mergeCausal c b) a := by rw [hbc]
    _ = mergeCausal c (mergeCausal b a) := OrdMap.unionWith_assoc _ c b a
    _ = c := by rw [hab, hbc]

/-- Recording a list of events absorbs the earlier map. -/
theorem mergeCausal_foldl_recordEvent {datoms : Finset Datom} {causal : LiveCausal}
    (h : CausalOf datoms causal) (items : List Datom) :
    mergeCausal (items.foldl recordEvent causal) causal = items.foldl recordEvent causal := by
  induction items generalizing datoms causal with
  | nil => exact OrdMap.unionWith_self _ causal
  | cons d items ih =>
      exact mergeCausal_absorb_trans (mergeCausal_recordEvent h.noEmpty d)
        (ih (h.recordEvent d))

/-- Installing definitions keeps every attribute defined. -/
theorem isSome_defineAll {schema : Schema} {attr : Attribute} (h : schema[attr]?.isSome)
    (found : List (Attribute × AttributeDef)) : (defineAll schema found)[attr]?.isSome := by
  induction found generalizing schema with
  | nil => exact h
  | cons pair found ih =>
      refine ih ?_
      rw [Schema.getElem?_define]
      split
      · rfl
      · exact h

/-- Attributes stay defined along receipts. -/
theorem Stamps.schema_mono {epoch epoch' : UInt64} {schema schema' : Schema}
    {receipts : List TxReceipt} (h : Stamps epoch schema receipts epoch' schema')
    {attr : Attribute} (hattr : schema[attr]?.isSome) : schema'[attr]?.isSome := by
  induction h with
  | nil => exact hattr
  | cons order _ hevolve _ ih =>
      refine ih ?_
      rw [evolveSchema] at hevolve
      have hsnd := installGroups_snd_of_ok (congrArg Prod.fst hevolve)
      rw [hevolve] at hsnd
      simp only at hsnd
      rw [hsnd]
      exact isSome_defineAll hattr _

/-- A later state absorbs an earlier one in everything but the schema. -/
theorem Commits.merge_earlier {before after : Observation} {receipts : List TxReceipt}
    (h : Commits before receipts after) (hvalid : before.Valid) :
    after.merge before =
      { after with schema := OrdMap.unionWith min after.schema before.schema } := by
  obtain ⟨epoch, schema, hstamps, rfl⟩ := h
  have hlive := (hvalid.commit epoch schema (receipts.flatMap TxReceipt.datoms)).live
  have hcausal : mergeCausal
      (before.commit epoch schema (receipts.flatMap TxReceipt.datoms)).liveCausal
      before.liveCausal =
        (before.commit epoch schema (receipts.flatMap TxReceipt.datoms)).liveCausal := by
    simp only [Observation.commit, Observation.liveCausal_addDatoms]
    exact mergeCausal_foldl_recordEvent hvalid.causal _
  have hset : (before.commit epoch schema (receipts.flatMap TxReceipt.datoms)).datomSet ∪
      before.datomSet =
        (before.commit epoch schema (receipts.flatMap TxReceipt.datoms)).datomSet := by
    simp only [Observation.commit, Observation.datomSet_addDatoms]
    exact Finset.union_eq_left.mpr Finset.subset_union_left
  rw [Observation.merge, hcausal, hset, ← hlive]
  ext1
  · rfl
  · rfl
  · exact max_eq_left hstamps.epoch_le
  · simp [Observation.commit, Observation.addDatoms_eq]
  · rfl
  · rfl

/-- Keeping the smaller definitions gives back the later schema exactly when none of its
definitions is greater than the earlier one. -/
theorem Commits.unionWith_min_eq_iff {before after : Observation} {receipts : List TxReceipt}
    (h : Commits before receipts after) :
    OrdMap.unionWith min after.schema before.schema = after.schema ↔
      ∀ (attr : Attribute) (earlier later : AttributeDef), before.schema[attr]? = some earlier →
        after.schema[attr]? = some later → later ≤ earlier := by
  obtain ⟨epoch, schema, hstamps, rfl⟩ := h
  constructor
  · intro heq attr earlier later hearlier hlater
    have hlookup := OrdMap.getElem?_unionWith min
      (before.commit epoch schema (receipts.flatMap TxReceipt.datoms)).schema before.schema attr
    rw [heq, hlater, hearlier, Option.merge_some_some] at hlookup
    exact min_eq_left_iff.mp (Option.some.inj hlookup).symm
  · intro hle
    refine OrdMap.ext fun attr => ?_
    rw [OrdMap.getElem?_unionWith]
    cases hearlier : before.schema[attr]? with
    | none => simp
    | some earlier =>
        have hsome : schema[attr]?.isSome :=
          hstamps.schema_mono (by rw [hearlier]; rfl)
        obtain ⟨later, hlater⟩ := Option.isSome_iff_exists.mp hsome
        have hlater' : (before.commit epoch schema
            (receipts.flatMap TxReceipt.datoms)).schema[attr]? = some later := hlater
        rw [hlater', Option.merge_some_some, min_eq_left (hle attr earlier later hearlier hlater')]

end Absorb

namespace Store

variable [Blake3]

section Stale

/-- A run of successful transactions and batches. -/
inductive TransactRun : Store → Store → Prop
  | refl (store : Store) : TransactRun store store
  | transact {start store : Store} {receipt : TxReceipt} (order : IterOrder)
      (transaction : Transaction) (ctx : TransactContext) :
      TransactRun start store → (transact order store transaction ctx).1 = .ok receipt →
      TransactRun start (transact order store transaction ctx).2
  | batch {start store : Store} {receipts : List TxReceipt} (orders : Nat → IterOrder)
      (batches : List (List Datom × TxId)) :
      TransactRun start store → (batchSpliceTransact orders store batches).1 = .ok receipts →
      TransactRun start (batchSpliceTransact orders store batches).2

/-- A run commits the receipts of its calls. -/
theorem TransactRun.commits {start store : Store} (h : TransactRun start store) :
    ∃ receipts, Commits start.obs receipts store.obs := by
  induction h with
  | refl => exact ⟨[], Commits.refl _⟩
  | transact order transaction ctx _ hok ih =>
      obtain ⟨receipts, hrun⟩ := ih
      exact ⟨_, hrun.append (transact_ok hok).2⟩
  | batch orders batches _ hok ih =>
      obtain ⟨receipts, hrun⟩ := ih
      exact ⟨_, hrun.append (batchSpliceTransact_ok hok).2⟩

/-- Merging a store with an earlier state of itself, in either order, gives back the later datom
set, epoch and LIVE maps. Every attribute keeps the smaller of its two definitions, so the later
schema comes back exactly when no definition was replaced by a greater one. -/
theorem fromMerge_stale {earlier later : Store} (hreach : Reachable earlier)
    (hrun : TransactRun earlier later) :
    ∀ merged ∈ [fromMerge later earlier, fromMerge earlier later],
      merged.datomSet = later.datomSet ∧ merged.epoch = later.epoch ∧
        merged.liveCausal = later.liveCausal ∧ merged.liveSet = later.liveSet ∧
        merged.schema = OrdMap.unionWith min later.schema earlier.schema ∧
        (merged.schema = later.schema ↔
          ∀ (attr : Attribute) (old new : AttributeDef), earlier.schema[attr]? = some old →
            later.schema[attr]? = some new → new ≤ old) := by
  obtain ⟨receipts, hcommits⟩ := hrun.commits
  have habsorb := hcommits.merge_earlier hreach.valid
  have hboth : ∀ merged ∈ [fromMerge later earlier, fromMerge earlier later],
      merged.obs = { later.obs with
        schema := OrdMap.unionWith min later.schema earlier.schema } := by
    intro merged hmem
    rcases List.mem_pair.mp hmem with rfl | rfl
    · rw [obs_fromMerge]
      exact habsorb
    · rw [obs_fromMerge, Observation.merge_comm]
      exact habsorb
  intro merged hmem
  have hobs := hboth merged hmem
  refine ⟨congrArg Observation.datomSet hobs, congrArg Observation.epoch hobs,
    congrArg Observation.liveCausal hobs, congrArg Observation.liveSet hobs,
    congrArg Observation.schema hobs, ?_⟩
  have hschema : merged.schema = OrdMap.unionWith min later.schema earlier.schema :=
    congrArg Observation.schema hobs
  rw [hschema]
  exact hcommits.unionWith_min_eq_iff

end Stale

end Store

namespace Sample

/-- A transaction that redefines `db/doc` as a reference. -/
def redefineDoc : Transaction :=
  ⟨NodeId.zero,
    [⟨entity, "db/ident", .keyword "db/doc", tx, .assert⟩,
     ⟨entity, "db/valueType", .keyword "db.type/ref", tx, .assert⟩,
     ⟨entity, "db/cardinality", .keyword "db.cardinality/one", tx, .assert⟩]⟩

/-- The genesis store after the redefinition. -/
def redefined : Store :=
  (Store.transact .arrival .genesis redefineDoc (batchContext tx)).2

/-- The redefinition of `db/doc` commits. -/
theorem redefineDoc_ok :
    ∃ receipt, (Store.transact .arrival .genesis redefineDoc (batchContext tx)).1 =
      .ok receipt := by
  have h : (Store.transact .arrival .genesis redefineDoc (batchContext tx)).1.isOk = true := by
    decide +kernel
  cases hresult : (Store.transact .arrival .genesis redefineDoc (batchContext tx)).1 with
  | error e =>
      rw [hresult] at h
      cases h
  | ok receipt => exact ⟨receipt, rfl⟩

/-- The sample store results from transactions. -/
theorem run_redefined : Store.TransactRun .genesis redefined := by
  obtain ⟨receipt, hok⟩ := redefineDoc_ok
  exact .transact .arrival redefineDoc (batchContext tx) (.refl _) hok

end Sample

namespace Store

/-- Merging the redefined store with the genesis store, in either order. -/
theorem fromMerge_stale_redefined :
    Reachable genesis ∧ TransactRun genesis redefined ∧
      ∀ merged ∈ [fromMerge redefined genesis, fromMerge genesis redefined],
        merged.datomSet = redefined.datomSet ∧ merged.epoch = redefined.epoch ∧
          merged.liveCausal = redefined.liveCausal ∧ merged.liveSet = redefined.liveSet ∧
          merged.schema = OrdMap.unionWith min redefined.schema genesis.schema ∧
          (merged.schema = redefined.schema ↔
            ∀ (attr : Attribute) (old new : AttributeDef), genesis.schema[attr]? = some old →
              redefined.schema[attr]? = some new → new ≤ old) :=
  ⟨.genesis, run_redefined, fromMerge_stale .genesis run_redefined⟩

/-- The merge with the earlier store brings back the definition that the run replaced. -/
theorem fromMerge_stale_counterexample :
    Reachable genesis ∧ TransactRun genesis redefined ∧
      (fromMerge redefined genesis).schema["db/doc"]? = some (lwwStr "Documentation string") ∧
      redefined.schema["db/doc"]? = some ⟨.ref, .one, .lww, none⟩ ∧
      (fromMerge redefined genesis).schema ≠ redefined.schema := by
  have hmerged : (fromMerge redefined genesis).schema["db/doc"]? =
      some (lwwStr "Documentation string") := by decide +kernel
  have hlater : redefined.schema["db/doc"]? = some ⟨.ref, .one, .lww, none⟩ := by
    decide +kernel
  refine ⟨.genesis, run_redefined, hmerged, hlater, fun heq => ?_⟩
  rw [heq, hlater] at hmerged
  exact absurd (Option.some.inj hmerged) (by decide)

end Store

end Ferratomic
