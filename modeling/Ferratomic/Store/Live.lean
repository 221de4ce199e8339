import Ferratomic.Lib.OrdMap
import Ferratomic.Datom

/-!
# The LIVE lattice

The causal map keeps, for every entity, attribute and value, the event with the greatest
transaction id and its operation; the LIVE set keeps the values whose event is an assertion.
Three pieces of code maintain them: the full rebuild `buildLiveCausal`, the incremental
`liveApply` and the pairwise `mergeCausal`.

`CausalOf D causal` says what the map is for: its entry for a triple is a latest event among the
datoms of `D`. The main theorems say that each of the three keeps it (`causalOf_buildLiveCausal`,
`CausalOf.liveApply`, `CausalOf.mergeCausal`) and that the incremental path keeps the LIVE set
the projection of the causal map (`liveApply_snd`).
-/

namespace Ferratomic

open Lib Datom

/-- The latest event of a triple: its transaction and operation, compared in this order. -/
abbrev LiveEvent := TxId ×ₗ Op

/-- The causal LIVE lattice. -/
abbrev LiveCausal := OrdMap LiveKey (OrdMap Value LiveEvent)

/-- The materialised LIVE values. -/
abbrev LiveSet := OrdMap LiveKey (Finset Value)

/-- The event a datom records. -/
def Datom.event (d : Datom) : LiveEvent :=
  toLex (d.tx, d.op)

/-- One iteration of `build_live_causal`: an existing event that is not older is kept. -/
def buildLiveStep (causal : LiveCausal) (d : Datom) : LiveCausal :=
  let entries := causal[d.liveKey]?.getD ∅
  match entries[d.value]? with
  | some existing =>
      if d.tx ≤ (ofLex existing).1 then causal.insert d.liveKey entries
      else causal.insert d.liveKey (entries.insert d.value d.event)
  | none => causal.insert d.liveKey (entries.insert d.value d.event)

/-- `build_live_causal`: rebuild the causal map from a sequence of datoms. -/
def buildLiveCausal (datoms : List Datom) : LiveCausal :=
  datoms.foldl buildLiveStep ∅

/-- The values of an entry map whose event is an assertion. -/
def assertedValues (entries : OrdMap Value LiveEvent) : Finset Value :=
  (entries.toList.filterMap fun entry =>
    if (ofLex entry.2).2 = .assert then some entry.1 else none).toFinset

/-- `derive_live_set`: the asserted values by key, without empty sets. -/
def deriveLiveSet (causal : LiveCausal) : LiveSet :=
  causal.filterMap fun _ entries =>
    if (assertedValues entries).Nonempty then some (assertedValues entries) else none

/-- `live_apply`: update the causal map and the LIVE set for one datom. -/
def liveApply (causal : LiveCausal) (live : LiveSet) (d : Datom) : LiveCausal × LiveSet :=
  let existing := causal[d.liveKey]?.bind fun entries => entries[d.value]?
  let wasLive := existing.any fun event => (ofLex event).2 = .assert
  let shouldUpdate := existing.all fun event => (ofLex event).1 < d.tx
  if shouldUpdate then
    let causal' := causal.insert d.liveKey ((causal[d.liveKey]?.getD ∅).insert d.value d.event)
    if d.op = .assert ∧ ¬wasLive then
      (causal', live.insert d.liveKey (insert d.value (live[d.liveKey]?.getD ∅)))
    else if d.op ≠ .assert ∧ wasLive then
      match live[d.liveKey]? with
      | some values =>
          if values.erase d.value = ∅ then (causal', live.erase d.liveKey)
          else (causal', live.insert d.liveKey (values.erase d.value))
      | none => (causal', live)
    else (causal', live)
  else (causal, live)

/-- Apply datoms to the LIVE maps one by one. -/
def liveApplyAll (maps : LiveCausal × LiveSet) (datoms : List Datom) : LiveCausal × LiveSet :=
  datoms.foldl (fun maps d => liveApply maps.1 maps.2 d) maps

/-- `merge_causal`: the nested union with the greater event at shared triples. -/
def mergeCausal (a b : LiveCausal) : LiveCausal :=
  OrdMap.unionWith (OrdMap.unionWith max) a b

/-- Causal maps merge alike in either order. -/
theorem mergeCausal_comm (a b : LiveCausal) : mergeCausal a b = mergeCausal b a :=
  OrdMap.unionWith_comm _ a b

section Events

/-- The datom is newer than the recorded event of its triple, if there is one. -/
def Supersedes (causal : LiveCausal) (d : Datom) : Prop :=
  ∀ event, OrdMap.get₂ causal d.liveKey d.value = some event → (ofLex event).1 < d.tx

instance (causal : LiveCausal) (d : Datom) : Decidable (Supersedes causal d) :=
  decidable_of_iff
    ((OrdMap.get₂ causal d.liveKey d.value).all fun event => (ofLex event).1 < d.tx) (by
      simp only [Supersedes, Option.all_eq_true, decide_eq_true_eq])

/-- Record the event of a datom when it is newer. -/
def recordEvent (causal : LiveCausal) (d : Datom) : LiveCausal :=
  if Supersedes causal d then OrdMap.insert₂ causal d.liveKey d.value d.event else causal

/-- Inserting the entries found at a key changes nothing. -/
theorem insert_getD_self {causal : LiveCausal} {key : LiveKey} {value : Value}
    {event : LiveEvent} (h : (causal[key]?.getD ∅)[value]? = some event) :
    causal.insert key (causal[key]?.getD ∅) = causal := by
  refine OrdMap.ext fun probe => ?_
  rw [OrdMap.getElem?_insert_eq]
  split
  case isTrue hkey =>
      subst hkey
      cases hentries : causal[key]? with
      | none => simp [hentries] at h
      | some entries => rfl
  case isFalse => rfl

/-- One iteration of the rebuild records the event. -/
theorem buildLiveStep_eq (causal : LiveCausal) (d : Datom) :
    buildLiveStep causal d = recordEvent causal d := by
  have hget := OrdMap.getElem?_getD_eq_get₂ causal d.liveKey d.value
  unfold buildLiveStep recordEvent
  cases h : (causal[d.liveKey]?.getD ∅)[d.value]? with
  | some existing =>
      rw [h] at hget
      simp only [h]
      by_cases hle : d.tx ≤ (ofLex existing).1
      · have hnot : ¬Supersedes causal d := fun hs => not_lt.mpr hle (hs existing hget.symm)
        rw [if_pos hle, if_neg hnot, insert_getD_self h]
      · have hs : Supersedes causal d := by
          intro event hevent
          rw [← hget] at hevent
          cases hevent
          exact not_le.mp hle
        rw [if_neg hle, if_pos hs, OrdMap.insert₂]
  | none =>
      simp only [h]
      have hs : Supersedes causal d := by
        intro event hevent
        rw [← hget, h] at hevent
        cases hevent
      rw [if_pos hs, OrdMap.insert₂]

/-- The incremental update records the event. -/
theorem liveApply_fst (causal : LiveCausal) (live : LiveSet) (d : Datom) :
    (liveApply causal live d).1 = recordEvent causal d := by
  have hiff : (Option.all (fun event => decide ((ofLex event).1 < d.tx))
      (causal[d.liveKey]?.bind fun entries => entries[d.value]?)) = true ↔
        Supersedes causal d := by
    simp only [Supersedes, OrdMap.get₂, Option.all_eq_true, decide_eq_true_eq]
  unfold liveApply recordEvent
  simp only [hiff]
  split
  · split
    · rfl
    · split
      · split
        · split <;> rfl
        · rfl
      · rfl
  · rfl

/-- Lookup after recording an event. -/
theorem get₂_recordEvent (causal : LiveCausal) (d : Datom) (key : LiveKey) (value : Value) :
    OrdMap.get₂ (recordEvent causal d) key value =
      if (d.liveKey = key ∧ d.value = value) ∧ Supersedes causal d then some d.event
      else OrdMap.get₂ causal key value := by
  unfold recordEvent
  by_cases hs : Supersedes causal d
  · rw [if_pos hs, OrdMap.get₂_insert₂]
    by_cases htriple : d.liveKey = key ∧ d.value = value
    · rw [if_pos htriple, if_pos ⟨htriple, hs⟩]
    · rw [if_neg htriple, if_neg fun h => htriple h.1]
  · rw [if_neg hs, if_neg fun h => hs h.2]

end Events

section Specification

/-- The causal map records a latest event of every triple that occurs in the datom set. -/
structure CausalOf (datoms : Finset Datom) (causal : LiveCausal) : Prop where
  /-- A recorded event is that of a datom of the set. -/
  sound : ∀ key value event, OrdMap.get₂ causal key value = some event →
    ∃ d ∈ datoms, d.liveKey = key ∧ d.value = value ∧ d.event = event
  /-- Every datom's triple has a recorded event that is not older. -/
  latest : ∀ d ∈ datoms, ∃ event, OrdMap.get₂ causal d.liveKey d.value = some event ∧
    d.tx ≤ (ofLex event).1
  /-- No key without entries is kept. -/
  noEmpty : OrdMap.NoEmpty causal

/-- The empty map is the causal map of no datoms. -/
theorem causalOf_empty : CausalOf ∅ ∅ where
  sound key value event h := by simp at h
  latest d hd := by simp at hd
  noEmpty := OrdMap.noEmpty_empty

/-- Recording an event is inserting its datom. -/
theorem CausalOf.recordEvent {datoms : Finset Datom} {causal : LiveCausal}
    (h : CausalOf datoms causal) (d : Datom) :
    CausalOf (insert d datoms) (recordEvent causal d) where
  sound key value event hevent := by
    rw [get₂_recordEvent] at hevent
    split at hevent
    case isTrue hc =>
        cases hevent
        exact ⟨d, Finset.mem_insert_self d datoms, hc.1.1, hc.1.2, rfl⟩
    case isFalse =>
        obtain ⟨d', hd', hrest⟩ := h.sound key value event hevent
        exact ⟨d', Finset.mem_insert_of_mem hd', hrest⟩
  latest d' hd' := by
    rw [get₂_recordEvent]
    by_cases hc : (d.liveKey = d'.liveKey ∧ d.value = d'.value) ∧ Supersedes causal d
    · refine ⟨d.event, if_pos hc, ?_⟩
      rcases Finset.mem_insert.mp hd' with rfl | hmem
      · exact le_refl _
      · obtain ⟨event, hevent, hle⟩ := h.latest d' hmem
        rw [← hc.1.1, ← hc.1.2] at hevent
        exact le_of_lt (lt_of_le_of_lt hle (hc.2 event hevent))
    · rw [if_neg hc]
      rcases Finset.mem_insert.mp hd' with rfl | hmem
      · -- an event that does not supersede has a later one recorded already
        have hnot : ¬Supersedes causal d' := fun hs => hc ⟨⟨rfl, rfl⟩, hs⟩
        simp only [Supersedes, not_forall] at hnot
        obtain ⟨event, hevent, hle⟩ := hnot
        exact ⟨event, hevent, not_lt.mp hle⟩
      · exact h.latest d' hmem
  noEmpty := by
    unfold Ferratomic.recordEvent
    split
    · exact h.noEmpty.insert₂ _ _ _
    · exact h.noEmpty

/-- Folding events over a list adds the list's datoms. -/
theorem CausalOf.foldl_recordEvent {datoms : Finset Datom} {causal : LiveCausal}
    (h : CausalOf datoms causal) (items : List Datom) :
    CausalOf (datoms ∪ items.toFinset) (items.foldl Ferratomic.recordEvent causal) := by
  induction items generalizing datoms causal with
  | nil => simpa using h
  | cons d items ih =>
      have hstep := ih (h.recordEvent d)
      rwa [Finset.insert_union, ← Finset.union_insert, ← List.toFinset_cons] at hstep

/-- The rebuild folds events over the datoms. -/
theorem buildLiveCausal_eq (items : List Datom) :
    buildLiveCausal items = items.foldl recordEvent ∅ := by
  unfold buildLiveCausal
  congr 1
  funext causal d
  exact buildLiveStep_eq causal d

/-- The rebuild meets the specification of the datoms it visits. -/
theorem causalOf_buildLiveCausal (items : List Datom) :
    CausalOf items.toFinset (buildLiveCausal items) := by
  rw [buildLiveCausal_eq]
  simpa using causalOf_empty.foldl_recordEvent items

/-- A merge of causal maps meets the specification of the union. -/
theorem CausalOf.mergeCausal {A B : Finset Datom} {a b : LiveCausal} (ha : CausalOf A a)
    (hb : CausalOf B b) : CausalOf (A ∪ B) (mergeCausal a b) where
  sound key value event h := by
    rw [Ferratomic.mergeCausal, OrdMap.get₂_unionWith] at h
    rcases Option.merge_eq_some_iff.mp h with ⟨hleft, -⟩ | ⟨-, hright⟩ | ⟨x, y, hx, hy, rfl⟩
    · obtain ⟨d, hd, hrest⟩ := ha.sound key value event hleft
      exact ⟨d, Finset.mem_union_left B hd, hrest⟩
    · obtain ⟨d, hd, hrest⟩ := hb.sound key value event hright
      exact ⟨d, Finset.mem_union_right A hd, hrest⟩
    · -- the greater of two events is one of them
      rcases max_choice x y with hmax | hmax
      · obtain ⟨d, hd, hrest⟩ := ha.sound key value x hx
        exact ⟨d, Finset.mem_union_left B hd, by rwa [hmax]⟩
      · obtain ⟨d, hd, hrest⟩ := hb.sound key value y hy
        exact ⟨d, Finset.mem_union_right A hd, by rwa [hmax]⟩
  latest d hd := by
    rw [Ferratomic.mergeCausal, OrdMap.get₂_unionWith]
    have hfst : ∀ x y : LiveEvent, x ≤ y → (ofLex x).1 ≤ (ofLex y).1 := fun x y h =>
      Prod.Lex.monotone_fst x y h
    rcases Finset.mem_union.mp hd with hmem | hmem
    · obtain ⟨x, hx, hle⟩ := ha.latest d hmem
      rw [hx]
      cases OrdMap.get₂ b d.liveKey d.value with
      | none => exact ⟨x, rfl, hle⟩
      | some y => exact ⟨max x y, rfl, le_trans hle (hfst _ _ (le_max_left x y))⟩
    · obtain ⟨y, hy, hle⟩ := hb.latest d hmem
      rw [hy]
      cases OrdMap.get₂ a d.liveKey d.value with
      | none => exact ⟨y, rfl, hle⟩
      | some x => exact ⟨max x y, rfl, le_trans hle (hfst _ _ (le_max_right x y))⟩
  noEmpty := ha.noEmpty.unionWith hb.noEmpty

end Specification

section Projection

/-- A value is asserted exactly when its latest event is an assertion. -/
theorem mem_assertedValues {entries : OrdMap Value LiveEvent} {value : Value} :
    value ∈ assertedValues entries ↔
      ∃ event, entries[value]? = some event ∧ (ofLex event).2 = .assert := by
  simp only [assertedValues, List.mem_toFinset, List.mem_filterMap, Prod.exists]
  constructor
  · rintro ⟨v, event, hmem, hif⟩
    split at hif
    case isTrue hop =>
        cases hif
        exact ⟨event, OrdMap.mem_toList.mp hmem, hop⟩
    case isFalse => cases hif
  · rintro ⟨event, hlookup, hop⟩
    exact ⟨value, event, OrdMap.mem_toList.mpr hlookup, by rw [if_pos hop]⟩

/-- The asserted values of a key, with none for an absent key. -/
def liveAt (causal : LiveCausal) (key : LiveKey) : Finset Value :=
  assertedValues (causal[key]?.getD ∅)

/-- A value is live at a key exactly when its latest event there is an assertion. -/
theorem mem_liveAt {causal : LiveCausal} {key : LiveKey} {value : Value} :
    value ∈ liveAt causal key ↔
      ∃ event, OrdMap.get₂ causal key value = some event ∧ (ofLex event).2 = .assert := by
  rw [liveAt, mem_assertedValues, OrdMap.getElem?_getD_eq_get₂]

/-- The projection lists the asserted values of the keys that have any. -/
theorem getElem?_deriveLiveSet (causal : LiveCausal) (key : LiveKey) :
    (deriveLiveSet causal)[key]? =
      if (liveAt causal key).Nonempty then some (liveAt causal key) else none := by
  rw [deriveLiveSet, OrdMap.getElem?_filterMap_eq, liveAt]
  cases causal[key]? with
  | none =>
      have hempty : assertedValues ∅ = ∅ := by
        ext value
        simp [mem_assertedValues]
      simp [hempty]
  | some entries => simp

/-- Recording a newer event changes the asserted values of its own key only. -/
theorem liveAt_insert₂ (causal : LiveCausal) (d : Datom) (key : LiveKey) :
    liveAt (OrdMap.insert₂ causal d.liveKey d.value d.event) key =
      if d.liveKey = key then
        if d.op = .assert then insert d.value (liveAt causal key)
        else (liveAt causal key).erase d.value
      else liveAt causal key := by
  ext value
  simp only [mem_liveAt, OrdMap.get₂_insert₂]
  by_cases hkey : d.liveKey = key
  · by_cases hvalue : d.value = value
    · by_cases hop : d.op = .assert <;> simp [hkey, hvalue, hop, Datom.event]
    · have hvalue' : value ≠ d.value := fun h => hvalue h.symm
      by_cases hop : d.op = .assert <;> simp [hkey, hvalue, hvalue', hop, mem_liveAt]
  · simp [hkey, mem_liveAt]

/-- The values listed for a key, with none for an absent key. -/
theorem getD_deriveLiveSet (causal : LiveCausal) (key : LiveKey) :
    (deriveLiveSet causal)[key]?.getD ∅ = liveAt causal key := by
  rw [getElem?_deriveLiveSet]
  split
  case isTrue => rfl
  case isFalse h => exact (Finset.not_nonempty_iff_eq_empty.mp h).symm

/-- A newly asserted value is added to the LIVE values of its key. -/
theorem deriveLiveSet_insert₂_of_assert {causal : LiveCausal} {d : Datom} (hop : d.op = .assert) :
    deriveLiveSet (OrdMap.insert₂ causal d.liveKey d.value d.event) =
      (deriveLiveSet causal).insert d.liveKey
        (insert d.value ((deriveLiveSet causal)[d.liveKey]?.getD ∅)) := by
  refine OrdMap.ext fun probe => ?_
  rw [OrdMap.getElem?_insert_eq, getElem?_deriveLiveSet, liveAt_insert₂, getD_deriveLiveSet]
  by_cases hkey : d.liveKey = probe
  · subst hkey
    simp [hop]
  · simp [hkey, getElem?_deriveLiveSet]

/-- A newly retracted value is removed from the LIVE values of its key. -/
theorem deriveLiveSet_insert₂_of_retract {causal : LiveCausal} {d : Datom}
    (hop : d.op ≠ .assert) :
    deriveLiveSet (OrdMap.insert₂ causal d.liveKey d.value d.event) =
      if (liveAt causal d.liveKey).erase d.value = ∅ then (deriveLiveSet causal).erase d.liveKey
      else (deriveLiveSet causal).insert d.liveKey ((liveAt causal d.liveKey).erase d.value) := by
  refine OrdMap.ext fun probe => ?_
  rw [getElem?_deriveLiveSet, liveAt_insert₂]
  by_cases hkey : d.liveKey = probe
  · subst hkey
    by_cases hempty : (liveAt causal d.liveKey).erase d.value = ∅
    · simp [hop, hempty]
    · simp [hop, hempty, Finset.nonempty_iff_ne_empty]
  · rw [if_neg hkey, ← getElem?_deriveLiveSet]
    by_cases hempty : (liveAt causal d.liveKey).erase d.value = ∅
    · rw [if_pos hempty, OrdMap.getElem?_erase_eq, if_neg hkey]
    · rw [if_neg hempty, OrdMap.getElem?_insert_eq, if_neg hkey]

/-- An event that does not change whether its value is LIVE leaves the projection as it is. -/
theorem deriveLiveSet_insert₂_of_same {causal : LiveCausal} {d : Datom}
    (h : d.op = .assert ↔ d.value ∈ liveAt causal d.liveKey) :
    deriveLiveSet (OrdMap.insert₂ causal d.liveKey d.value d.event) = deriveLiveSet causal := by
  refine OrdMap.ext fun probe => ?_
  rw [getElem?_deriveLiveSet, getElem?_deriveLiveSet, liveAt_insert₂]
  by_cases hkey : d.liveKey = probe
  · subst hkey
    by_cases hop : d.op = .assert
    · simp only [if_true, hop, Finset.insert_eq_of_mem (h.mp hop)]
    · simp only [if_true, hop, if_false, Finset.erase_eq_of_notMem (mt h.mpr hop)]
  · simp only [hkey, if_false]

/-- The incremental update keeps the LIVE set the projection of the causal map. -/
theorem liveApply_snd (causal : LiveCausal) (d : Datom) :
    (liveApply causal (deriveLiveSet causal) d).2 =
      deriveLiveSet (liveApply causal (deriveLiveSet causal) d).1 := by
  rw [liveApply_fst]
  have hwas : (Option.any (fun event => decide ((ofLex event).2 = .assert))
      (causal[d.liveKey]?.bind fun entries => entries[d.value]?)) = true ↔
        d.value ∈ liveAt causal d.liveKey := by
    simp only [mem_liveAt, OrdMap.get₂, Option.any_eq_true, decide_eq_true_eq]
  have hsup : (Option.all (fun event => decide ((ofLex event).1 < d.tx))
      (causal[d.liveKey]?.bind fun entries => entries[d.value]?)) = true ↔
        Supersedes causal d := by
    simp only [Supersedes, OrdMap.get₂, Option.all_eq_true, decide_eq_true_eq]
  -- the live set changes only when the value enters it or leaves it
  unfold liveApply recordEvent
  simp only [hsup, hwas]
  by_cases hs : Supersedes causal d
  · simp only [if_pos hs]
    by_cases hop : d.op = .assert
    · by_cases hmem : d.value ∈ liveAt causal d.liveKey
      · simp only [hop, hmem, not_true, and_false, if_false, ne_eq, false_and]
        exact (deriveLiveSet_insert₂_of_same (iff_of_true hop hmem)).symm
      · simp only [hop, hmem, not_false_eq_true, and_self, if_true]
        exact (deriveLiveSet_insert₂_of_assert hop).symm
    · by_cases hmem : d.value ∈ liveAt causal d.liveKey
      · have hlookup : (deriveLiveSet causal)[d.liveKey]? = some (liveAt causal d.liveKey) := by
          rw [getElem?_deriveLiveSet, if_pos ⟨d.value, hmem⟩]
        simp only [hop, hmem, false_and, if_false, ne_eq, not_false_eq_true, and_self, if_true,
          hlookup]
        rw [← OrdMap.insert₂, deriveLiveSet_insert₂_of_retract hop]
        split <;> rfl
      · simp only [hop, hmem, false_and, if_false, and_false]
        exact (deriveLiveSet_insert₂_of_same (iff_of_false hop hmem)).symm
  · simp only [if_neg hs]

end Projection

end Ferratomic
