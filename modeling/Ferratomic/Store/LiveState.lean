import Ferratomic.Store.Convergence

/-!
# The LIVE state of a store

The LIVE state exists three times: as the causal map, as the LIVE set that is derived from it, and
as the LIVE positions of a contiguous array. `live_invariant` says what the two maps hold in every
store, relative to the datom set, and what `live_resolve` returns. `positional_live_iff` says when
the positions agree with the LIVE set: a run ends in its greatest datom, so that a transaction that
both asserts and retracts a fact counts as a retraction there, while the rebuilt causal map takes
the assertion.
-/

namespace Ferratomic

open Lib Datom

namespace Store

section Maps

/-- The value of a key with the greatest pair of transaction and value among the assertions. -/
def IsLatestAssertion (causal : LiveCausal) (key : LiveKey) (value : Value) : Prop :=
  ∃ tx, OrdMap.get₂ causal key value = some (toLex (tx, .assert)) ∧
    ∀ value' tx', OrdMap.get₂ causal key value' = some (toLex (tx', .assert)) →
      (toLex (tx', value') : TxId ×ₗ Value) ≤ toLex (tx, value)

/-- The selection takes the assertion with the greatest transaction and value. -/
theorem selectLatestLiveValue_eq_some {entries : OrdMap Value LiveEvent} {value : Value} :
    selectLatestLiveValue entries = some value ↔
      ∃ tx, entries[value]? = some (toLex (tx, .assert)) ∧
        ∀ value' tx', entries[value']? = some (toLex (tx', .assert)) →
          (toLex (tx', value') : TxId ×ₗ Value) ≤ toLex (tx, value) := by
  have hmem (value : Value) (tx : TxId) :
      (value, (toLex (tx, .assert) : LiveEvent)) ∈
          entries.toList.filter (fun entry => (ofLex entry.2).2 = .assert) ↔
        entries[value]? = some (toLex (tx, .assert)) := by
    rw [List.mem_filter, OrdMap.mem_toList]
    simp
  have hassert {entry : Value × LiveEvent}
      (h : entry ∈ entries.toList.filter (fun entry => (ofLex entry.2).2 = .assert)) :
      entry = (entry.1, toLex ((ofLex entry.2).1, .assert)) := by
    have hop : (ofLex entry.2).2 = .assert := by simpa using (List.mem_filter.mp h).2
    rw [← hop]
    rfl
  -- the greatest key is unique, since it ends in the value itself
  rw [selectLatestLiveValue, Option.map_eq_some_iff]
  constructor
  · rintro ⟨entry, hargmax, rfl⟩
    have hentry := List.argmax_mem hargmax
    refine ⟨(ofLex entry.2).1, (hmem _ _).mp (hassert hentry ▸ hentry), fun value' tx' h' => ?_⟩
    have hle := List.le_of_mem_argmax ((hmem value' tx').mpr h') hargmax
    exact hle
  · rintro ⟨tx, hget, hmax⟩
    have hentry := (hmem value tx).mpr hget
    cases hargmax : (entries.toList.filter fun entry => (ofLex entry.2).2 = .assert).argmax
        fun entry => (toLex ((ofLex entry.2).1, entry.1) : TxId ×ₗ Value) with
    | none =>
        rw [List.argmax_eq_none.mp hargmax] at hentry
        cases hentry
    | some found =>
        have hfound := List.argmax_mem hargmax
        have hle := List.le_of_mem_argmax hentry hargmax
        have hge := hmax found.1 (ofLex found.2).1 ((hmem _ _).mp (hassert hfound ▸ hfound))
        have heq := le_antisymm hle hge
        exact ⟨found, rfl, (Prod.ext_iff.mp (toLex.injective heq)).2.symm⟩

variable [Blake3]

/-- A value is resolved exactly when it is that of the latest assertion. -/
theorem liveResolve_eq_some {store : Store} {entity : EntityId} {attr : Attribute} {value : Value} :
    store.liveResolve entity attr = some value ↔
      IsLatestAssertion store.liveCausal (toLex (entity, attr)) value := by
  rw [liveResolve, IsLatestAssertion]
  simp only [OrdMap.get₂]
  cases store.liveCausal[(toLex (entity, attr) : LiveKey)]? with
  | none => simp
  | some entries =>
      simp only [Option.bind_some]
      exact selectLatestLiveValue_eq_some

/-- What the LIVE maps of a store hold. -/
structure LiveInvariant (store : Store) : Prop where
  /-- A triple has an entry when a datom of the set has it. -/
  entry_iff : ∀ entity attr value,
    (OrdMap.get₂ store.liveCausal (toLex (entity, attr)) value).isSome ↔
      ∃ d ∈ store.datomSet, d.entity = entity ∧ d.attr = attr ∧ d.value = value
  /-- The entry has the greatest transaction of these datoms and the operation of one that has
  it. -/
  entry_latest : ∀ entity attr value tx op,
    OrdMap.get₂ store.liveCausal (toLex (entity, attr)) value = some (toLex (tx, op)) →
      (⟨entity, attr, value, tx, op⟩ : Datom) ∈ store.datomSet ∧
        ∀ d ∈ store.datomSet, d.entity = entity → d.attr = attr → d.value = value → d.tx ≤ tx
  /-- The LIVE set is the projection. -/
  live_eq : store.liveSet = deriveLiveSet store.liveCausal
  /-- No key is kept without values. -/
  live_nonempty : ∀ (key : LiveKey) (values : Finset Value),
    store.liveSet[key]? = some values → values.Nonempty
  /-- Resolution takes the assertion with the greatest transaction and value. -/
  resolve_some : ∀ entity attr value, store.liveResolve entity attr = some value ↔
    IsLatestAssertion store.liveCausal (toLex (entity, attr)) value
  /-- Resolution fails when there is no assertion. -/
  resolve_none : ∀ entity attr, store.liveResolve entity attr = none ↔
    ∀ value tx, OrdMap.get₂ store.liveCausal (toLex (entity, attr)) value ≠
      some (toLex (tx, .assert))

/-- Nothing is resolved exactly when no value is asserted. -/
theorem liveResolve_eq_none {store : Store} {entity : EntityId} {attr : Attribute} :
    store.liveResolve entity attr = none ↔
      ∀ value tx, OrdMap.get₂ store.liveCausal (toLex (entity, attr)) value ≠
        some (toLex (tx, .assert)) := by
  rw [liveResolve]
  simp only [OrdMap.get₂]
  cases store.liveCausal[(toLex (entity, attr) : LiveKey)]? with
  | none => simp
  | some entries =>
      simp only [Option.bind_some, selectLatestLiveValue, Option.map_eq_none_iff,
        List.argmax_eq_none, List.filter_eq_nil_iff, decide_eq_true_eq]
      constructor
      · intro hnone value tx hget
        exact hnone _ (OrdMap.mem_toList.mpr hget) rfl
      · rintro hnone ⟨value, event⟩ hentry hop
        refine hnone value (ofLex event).1 ?_
        rw [OrdMap.mem_toList.mp hentry, ← hop]
        rfl

/-- The LIVE maps of every store, whatever was loaded, merged or failed on the way. -/
theorem live_invariant {store : Store} (h : Operated store) : store.LiveInvariant where
  entry_iff entity attr value := by
    have hcausal := h.valid.causal
    constructor
    · intro hsome
      obtain ⟨event, hevent⟩ := Option.isSome_iff_exists.mp hsome
      exact ⟨_, (hcausal.event_spec hevent).1, rfl, rfl, rfl⟩
    · rintro ⟨d, hd, rfl, rfl, rfl⟩
      obtain ⟨event, hevent, -⟩ := hcausal.latest d hd
      exact Option.isSome_iff_exists.mpr ⟨event, hevent⟩
  entry_latest entity attr value tx op hget := by
    obtain ⟨hfact, hlatest⟩ := h.valid.causal.event_spec hget
    refine ⟨hfact, fun d hd hentity hattr hvalue => hlatest d hd ?_ hvalue⟩
    rw [liveKey, hentity, hattr]
  live_eq := h.valid.live
  live_nonempty key values hvalues := by
    have hlive : store.liveSet = deriveLiveSet store.liveCausal := h.valid.live
    rw [hlive, getElem?_deriveLiveSet] at hvalues
    split at hvalues
    next hnonempty =>
      cases hvalues
      exact hnonempty
    next => cases hvalues
  resolve_some _ _ _ := liveResolve_eq_some
  resolve_none _ _ := liveResolve_eq_none

end Maps

/-- An assertion that is retracted by a later insertion of the same transaction. -/
theorem live_invariant_retracted :
    ((fromDatoms {Sample.asserted}).insert Sample.retracted).LiveInvariant :=
  live_invariant (.insert Sample.retracted (.fromDatoms {Sample.asserted}))

end Store

section Runs

/-- The entry asserts its key and no entry of the same key follows it. -/
def EndsRun {K : Type} (entries : List (K × Op)) (j : Nat) (key : K) : Prop :=
  entries[j]? = some (key, .assert) ∧ ∀ entry, entries[j + 1]? = some entry → entry.1 ≠ key

/-- The ends of runs in a block of one key and in what follows it. -/
theorem endsRun_append {K : Type} {block later : List (K × Op)} {key : K} (hne : block ≠ [])
    (hblock : ∀ entry ∈ block, entry.1 = key)
    (hlater : ∀ entry, later.head? = some entry → entry.1 ≠ key) {j : Nat} {key' : K} :
    EndsRun (block ++ later) j key' ↔
      (j + 1 = block.length ∧ key' = key ∧ (block.getLast hne).2 = .assert) ∨
        ∃ j', j = block.length + j' ∧ EndsRun later j' key' := by
  have hlength : 0 < block.length := List.length_pos_of_ne_nil hne
  rcases Nat.lt_trichotomy (j + 1) block.length with hlt | heq | hgt
  · -- inside the block the next entry has the same key
    refine iff_of_false (fun hends => ?_) ?_
    · have hj : j < block.length := by omega
      have hthis := hends.1
      rw [List.getElem?_append_left hj] at hthis
      have hnext := hends.2 block[j + 1] (by rw [List.getElem?_append_left hlt]; simp)
      rw [hblock _ (List.getElem_mem _)] at hnext
      exact hnext (hblock _ (List.mem_of_getElem? hthis)).symm
    · rintro (⟨heq, -⟩ | ⟨j', rfl, -⟩) <;> omega
  · have hj : j < block.length := by omega
    -- the last entry of the block is followed by the first one of the rest
    have hlast : block[j]? = some (block.getLast hne) := by
      rw [← List.getLast?_eq_some_getLast hne, List.getLast?_eq_getElem?, ← heq,
        Nat.add_sub_cancel]
    have hnext : (block ++ later)[j + 1]? = later.head? := by
      rw [List.getElem?_append_right heq.ge, ← heq, Nat.sub_self, List.head?_eq_getElem?]
    have hkey := hblock _ (List.getLast_mem hne)
    rw [EndsRun, List.getElem?_append_left hj, hlast, hnext]
    constructor
    · rintro ⟨hthis, -⟩
      rw [Option.some.inj hthis] at hkey ⊢
      exact .inl ⟨heq, hkey, rfl⟩
    · rintro (⟨-, rfl, hop⟩ | ⟨j', rfl, -⟩)
      · exact ⟨congrArg some (Prod.ext hkey hop), hlater⟩
      · omega
  · -- past the block the positions are those of the rest
    obtain ⟨j', rfl⟩ := Nat.exists_eq_add_of_le (Nat.le_of_lt_succ hgt)
    have hends : EndsRun (block ++ later) (block.length + j') key' ↔ EndsRun later j' key' := by
      rw [EndsRun, EndsRun, List.getElem?_append_right (Nat.le_add_right _ _), Nat.add_assoc,
        List.getElem?_append_right (Nat.le_add_right _ _), Nat.add_sub_cancel_left,
        Nat.add_sub_cancel_left]
    rw [hends]
    constructor
    · intro hlater'
      exact .inr ⟨j', rfl, hlater'⟩
    · rintro (⟨heq, -⟩ | ⟨j'', heq, hlater'⟩)
      · omega
      · rw [Nat.add_left_cancel heq]
        exact hlater'

/-- The ends of runs, one run at a time as the scan visits them. -/
theorem endsRun_cons {K : Type} [DecidableEq K] {key : K} {op : Op} {rest : List (K × Op)} {j : Nat}
    {key' : K} :
    EndsRun ((key, op) :: rest) j key' ↔
      (j = (rest.takeWhile (·.1 = key)).length ∧ key' = key ∧
        (((rest.takeWhile (·.1 = key)).map Prod.snd).getLast?).getD op = .assert) ∨
      ∃ j', j = (rest.takeWhile (·.1 = key)).length + 1 + j' ∧
        EndsRun (rest.dropWhile (·.1 = key)) j' key' := by
  let block := (key, op) :: rest.takeWhile (·.1 = key)
  have hne : block ≠ [] := List.cons_ne_nil _ _
  have hsplit : (key, op) :: rest = block ++ rest.dropWhile (·.1 = key) := by
    simp only [block, List.cons_append, List.takeWhile_append_dropWhile]
  have hblock : ∀ entry ∈ block, entry.1 = key := by
    intro entry hentry
    rcases List.mem_cons.mp hentry with rfl | hrun
    · rfl
    · simpa using List.mem_takeWhile_imp hrun
  have hlater : ∀ entry, (rest.dropWhile (·.1 = key)).head? = some entry → entry.1 ≠ key := by
    intro entry hhead
    have hstop := List.head?_dropWhile_not (·.1 = key) rest
    rw [hhead] at hstop
    simpa using hstop
  have hlast : (block.getLast hne).2 =
      (((rest.takeWhile (·.1 = key)).map Prod.snd).getLast?).getD op := by
    refine Option.some.inj ?_
    show (some (block.getLast hne)).map Prod.snd = _
    rw [← List.getLast?_eq_some_getLast hne, ← List.getLast?_map]
    simp only [block, List.map_cons, List.getLast?_cons]
  rw [hsplit, endsRun_append hne hblock hlater, hlast]
  simp only [block, List.length_cons, Nat.add_left_inj]

/-- The scan marks the assertions that end a run. -/
theorem mem_livePositionsFromSortedRuns {K : Type} [DecidableEq K] {start : Nat}
    {entries : List (K × Op)} (hbound : start + entries.length ≤ u32Max + 1) {i : Nat} :
    i ∈ livePositionsFromSortedRuns start entries ↔
      ∃ j key, i = start + j ∧ EndsRun entries j key := by
  fun_induction livePositionsFromSortedRuns start entries with
  | case1 start =>
      refine iff_of_false List.not_mem_nil ?_
      rintro ⟨j, key, -, hends, -⟩
      cases hends
  | case2 start key op rest run last lastOp later hop ih =>
      have hlength : run.length + (rest.dropWhile (·.1 = key)).length = rest.length := by
        rw [← List.length_append, List.takeWhile_append_dropWhile]
      rw [List.length_cons] at hbound
      have hmin : min last u32Max = last := by omega
      rw [List.mem_cons, hmin, ih (by omega)]
      constructor
      · rintro (rfl | ⟨j, key', rfl, hends⟩)
        · exact ⟨run.length, key, rfl, endsRun_cons.mpr (.inl ⟨rfl, rfl, hop⟩)⟩
        · refine ⟨run.length + 1 + j, key', by omega, endsRun_cons.mpr (.inr ⟨j, rfl, hends⟩)⟩
      · rintro ⟨j, key', rfl, hends⟩
        rcases endsRun_cons.mp hends with ⟨rfl, -, -⟩ | ⟨j', rfl, hends'⟩
        · exact .inl rfl
        · refine .inr ⟨j', key', ?_, hends'⟩
          show start + (run.length + 1 + j') = start + run.length + 1 + j'
          rw [← Nat.add_assoc, ← Nat.add_assoc]
  | case3 start key op rest run last lastOp later hop ih =>
      have hlength : run.length + (rest.dropWhile (·.1 = key)).length = rest.length := by
        rw [← List.length_append, List.takeWhile_append_dropWhile]
      rw [List.length_cons] at hbound
      rw [ih (by omega)]
      constructor
      · rintro ⟨j, key', rfl, hends⟩
        exact ⟨run.length + 1 + j, key', by omega, endsRun_cons.mpr (.inr ⟨j, rfl, hends⟩)⟩
      · rintro ⟨j, key', rfl, hends⟩
        rcases endsRun_cons.mp hends with ⟨-, -, hassert⟩ | ⟨j', rfl, hends'⟩
        · exact absurd hassert hop
        · refine ⟨j', key', ?_, hends'⟩
          show start + (run.length + 1 + j') = start + run.length + 1 + j'
          rw [← Nat.add_assoc, ← Nat.add_assoc]

/-- The triple of a datom, in the order of the array. -/
def Datom.triple (d : Datom) : EntityId ×ₗ Attribute ×ₗ Value :=
  toLex (d.entity, toLex (d.attr, d.value))

/-- Ascending datoms have ascending triples. -/
theorem Datom.triple_le {d d' : Datom} (h : d ≤ d') : d.triple ≤ d'.triple := by
  have hkey : d.sortKey ≤ d'.sortKey := h
  simp only [Datom.sortKey, Datom.triple, Prod.Lex.toLex_le_toLex] at hkey ⊢
  rcases hkey with hlt | ⟨heq, hlt | ⟨heq', hlt | ⟨heq'', -⟩⟩⟩
  · exact .inl hlt
  · exact .inr ⟨heq, .inl hlt⟩
  · exact .inr ⟨heq, .inr ⟨heq', hlt.le⟩⟩
  · exact .inr ⟨heq, .inr ⟨heq', heq''.le⟩⟩

/-- Two datoms are of one run exactly when their triples are equal. -/
theorem Datom.runKey_eq_iff {d d' : Datom} : d.runKey = d'.runKey ↔ d.triple = d'.triple := by
  simp only [Datom.runKey, Datom.triple, EmbeddingLike.apply_eq_iff_eq, Prod.mk.injEq]

/-- The triples of an ascending array are contiguous. -/
theorem Datom.runKey_of_between {d c d' : Datom} (hle : d ≤ c) (hle' : c ≤ d')
    (h : d'.runKey = d.runKey) : c.runKey = d.runKey := by
  rw [Datom.runKey_eq_iff] at h ⊢
  exact le_antisymm (h ▸ Datom.triple_le hle') (Datom.triple_le hle)

/-- The LIVE positions of an ascending array hold the assertions that are the greatest datom of
their triple. -/
theorem live_position_iff {canonical : List Datom} (hsorted : canonical.Pairwise (· < ·))
    (hbound : canonical.length ≤ u32Max + 1) {i : Nat} :
    i ∈ buildLiveRoaring canonical ↔
      ∃ d, canonical[i]? = some d ∧ d.op = .assert ∧
        ∀ d' ∈ canonical, d'.runKey = d.runKey → d' ≤ d := by
  rw [buildLiveRoaring, List.mem_toFinset, livePositionsKernel,
    mem_livePositionsFromSortedRuns (by rwa [List.length_map, Nat.zero_add])]
  constructor
  · rintro ⟨j, key, rfl, hthis, hnext⟩
    rw [Nat.zero_add]
    rw [List.getElem?_map, Option.map_eq_some_iff] at hthis
    obtain ⟨d, hd, heq⟩ := hthis
    obtain ⟨hkey, hop⟩ := Prod.mk.inj heq
    refine ⟨d, hd, hop, fun d' hd' hrun => ?_⟩
    obtain ⟨k, hk⟩ := List.mem_iff_getElem?.mp hd'
    obtain ⟨hj, rfl⟩ := List.getElem?_eq_some_iff.mp hd
    obtain ⟨hk', rfl⟩ := List.getElem?_eq_some_iff.mp hk
    by_contra hlt
    -- a greater datom of the triple stands later, and so does the next position's
    have hjk : j < k := by
      by_contra hle
      rcases Nat.lt_or_eq_of_le (Nat.le_of_not_lt hle) with hkj | rfl
      · exact hlt (List.pairwise_iff_getElem.mp hsorted k j hk' hj hkj).le
      · exact hlt le_rfl
    have hj' : j + 1 < canonical.length := by omega
    have hlow : canonical[j] ≤ canonical[j + 1] :=
      (List.pairwise_iff_getElem.mp hsorted j (j + 1) hj hj' (Nat.lt_succ_self j)).le
    have hhigh : canonical[j + 1] ≤ canonical[k] := by
      rcases Nat.lt_or_eq_of_le (Nat.succ_le_of_lt hjk) with hlt' | heq'
      · exact (List.pairwise_iff_getElem.mp hsorted (j + 1) k hj' hk' hlt').le
      · simp only [Nat.succ_eq_add_one] at heq'
        simp only [heq', le_refl]
    refine hnext (canonical[j + 1].runKey, canonical[j + 1].op) ?_ ?_
    · rw [List.getElem?_map, List.getElem?_eq_getElem hj', Option.map_some]
    · rw [← hkey]
      exact Datom.runKey_of_between hlow hhigh hrun
  · rintro ⟨d, hd, hop, hmax⟩
    refine ⟨i, d.runKey, (Nat.zero_add i).symm, ?_, fun entry hentry heq => ?_⟩
    · rw [List.getElem?_map, hd, Option.map_some, hop]
    · rw [List.getElem?_map, Option.map_eq_some_iff] at hentry
      obtain ⟨d', hd', rfl⟩ := hentry
      have hle := hmax d' (List.mem_of_getElem? hd') heq
      obtain ⟨hi, rfl⟩ := List.getElem?_eq_some_iff.mp hd
      obtain ⟨hi', rfl⟩ := List.getElem?_eq_some_iff.mp hd'
      have hlt := List.pairwise_iff_getElem.mp hsorted i (i + 1) hi hi' (Nat.lt_succ_self i)
      exact absurd hlt (not_lt.mpr hle)

end Runs

section Last

/-- The latest transaction of the triple asserts it and does not retract it. -/
def AssertsLast (datoms : Finset Datom) (key : LiveKey) (value : Value) (tx : TxId) : Prop :=
  factOf key value tx .assert ∈ datoms ∧ Latest datoms key value tx ∧
    factOf key value tx .retract ∉ datoms

/-- Datoms of one triple are ordered by their events. -/
theorem Datom.le_iff_event_le {d d' : Datom} (h : d.runKey = d'.runKey) :
    d ≤ d' ↔ d.event ≤ d'.event := by
  obtain ⟨hentity, hattr, hvalue⟩ : d.entity = d'.entity ∧ d.attr = d'.attr ∧
      d.value = d'.value := by simpa only [Datom.runKey, Prod.mk.injEq] using h
  show d.sortKey ≤ d'.sortKey ↔ _
  simp only [Datom.sortKey, Datom.event, Prod.Lex.toLex_le_toLex, hentity, hattr, hvalue,
    lt_self_iff_false, false_or, true_and]

/-- A datom of the key and value is of the run of the fact. -/
theorem Datom.runKey_eq_of {d : Datom} {key : LiveKey} {value : Value} (hkey : d.liveKey = key)
    (hvalue : d.value = value) (tx : TxId) (op : Op) :
    d.runKey = (factOf key value tx op).runKey := by
  subst hkey hvalue
  rfl

/-- The greatest datom of a triple is an assertion when its latest transaction asserts last. -/
theorem assertsLast_iff {datoms : Finset Datom} {key : LiveKey} {value : Value} {tx : TxId} :
    AssertsLast datoms key value tx ↔
      factOf key value tx .assert ∈ datoms ∧ ∀ d ∈ datoms,
        d.runKey = (factOf key value tx .assert).runKey → d ≤ factOf key value tx .assert := by
  refine and_congr_right fun hmem => ?_
  constructor
  · rintro ⟨hlatest, hretract⟩ d hd hrun
    obtain ⟨hentity, hattr, hvalue⟩ : d.entity = (ofLex key).1 ∧ d.attr = (ofLex key).2 ∧
        d.value = value := by simpa only [Datom.runKey, factOf, Prod.mk.injEq] using hrun
    have hkey : d.liveKey = key := by
      rw [liveKey, hentity, hattr]
      rfl
    rw [Datom.le_iff_event_le hrun]
    -- at the latest transaction a retraction would be the greater datom
    rcases lt_or_eq_of_le (hlatest d hd hkey hvalue) with hlt | heq
    · exact (Prod.Lex.toLex_lt_toLex.mpr (.inl hlt)).le
    · cases hop : d.op with
      | assert =>
          refine le_of_eq ?_
          show toLex (d.tx, d.op) = toLex (tx, Op.assert)
          rw [heq, hop]
      | retract =>
          refine absurd ?_ hretract
          rw [← heq, ← hop]
          exact factOf_event hkey hvalue (rfl : d.event = d.event) ▸ hd
  · intro hmax
    constructor
    · intro d hd hkey hvalue
      have hrun := Datom.runKey_eq_of hkey hvalue tx .assert
      exact Prod.Lex.monotone_fst _ _ ((Datom.le_iff_event_le hrun).mp (hmax d hd hrun))
    · intro hretract
      exact absurd (factOf_assert_lt_retract key value tx) (not_lt.mpr (hmax _ hretract rfl))

/-- A recorded assertion is last unless its transaction also retracts. -/
theorem CausalOf.assertsLast {datoms : Finset Datom} {causal : LiveCausal}
    (h : CausalOf datoms causal) {key : LiveKey} {value : Value}
    (htied : ¬ LatestTied datoms key value) {tx : TxId} :
    OrdMap.get₂ causal key value = some (toLex (tx, .assert)) ↔
      AssertsLast datoms key value tx := by
  constructor
  · intro hget
    obtain ⟨hfact, hlatest⟩ := h.event_spec hget
    exact ⟨hfact, hlatest, fun hretract => htied ⟨tx, hlatest, hfact, hretract⟩⟩
  · rintro ⟨hfact, hlatest, hretract⟩
    obtain ⟨op, hget⟩ := h.event_of_latest hfact hlatest
    cases op with
    | assert => exact hget
    | retract => exact absurd (h.event_spec hget).1 hretract

/-- In a tied triple nothing asserts last. -/
theorem LatestTied.not_assertsLast {datoms : Finset Datom} {key : LiveKey} {value : Value}
    (h : LatestTied datoms key value) (tx : TxId) : ¬ AssertsLast datoms key value tx := by
  rintro ⟨hfact, hlatest, hretract⟩
  obtain ⟨tx', hlatest', hassert', hretract'⟩ := h
  have heq : tx = tx' := le_antisymm (hlatest' _ hfact rfl rfl) (hlatest _ hassert' rfl rfl)
  exact hretract (heq ▸ hretract')

end Last

namespace PositionalStore

variable [Blake3]

/-- `is_live` -/
def isLive (ps : PositionalStore) (position : UInt32) : Bool :=
  decide (position.toNat ∈ ps.liveBits)

/-- `datom_at` -/
def datomAt (ps : PositionalStore) (position : UInt32) : Option Datom :=
  ps.canonical[position.toNat]?

/-- `live_datoms`: the datoms at the LIVE positions, in ascending order. -/
def liveDatoms (ps : PositionalStore) : List Datom :=
  (ps.liveBits.sort (· ≤ ·)).filterMap fun position => ps.canonical[position]?

/-- A datom is live when its position is one of the LIVE bits. -/
theorem mem_liveDatoms {ps : PositionalStore} {d : Datom} :
    d ∈ ps.liveDatoms ↔ ∃ i ∈ ps.liveBits, ps.canonical[i]? = some d := by
  simp only [liveDatoms, List.mem_filterMap, Finset.mem_sort]

/-- Positions within the array are `u32` positions. -/
theorem exists_isLive_iff {ps : PositionalStore} (hbound : ps.canonical.length ≤ u32Max + 1)
    {d : Datom} :
    (∃ position, ps.isLive position = true ∧ ps.datomAt position = some d) ↔
      d ∈ ps.liveDatoms := by
  rw [mem_liveDatoms]
  constructor
  · rintro ⟨position, hlive, hd⟩
    exact ⟨position.toNat, of_decide_eq_true hlive, hd⟩
  · rintro ⟨i, hlive, hd⟩
    obtain ⟨hi, -⟩ := List.getElem?_eq_some_iff.mp hd
    have hnat : (UInt32.ofNat i).toNat = i :=
      UInt32.toNat_ofNat_of_lt' (Nat.lt_of_lt_of_le hi hbound)
    exact ⟨UInt32.ofNat i, by rw [isLive, hnat, decide_eq_true hlive], by rw [datomAt, hnat, hd]⟩

/-- The LIVE datoms of an exact store are the assertions that are last in their triple. -/
theorem factOf_mem_liveDatoms {ps : PositionalStore}
    (hexact : ps.liveBits = buildLiveRoaring ps.canonical)
    (hbound : ps.canonical.length ≤ u32Max + 1) {key : LiveKey} {value : Value} {tx : TxId} :
    factOf key value tx .assert ∈ ps.liveDatoms ↔
      AssertsLast ps.canonical.toFinset key value tx := by
  simp only [mem_liveDatoms, hexact, live_position_iff ps.sorted hbound, assertsLast_iff,
    List.mem_toFinset]
  constructor
  · rintro ⟨i, ⟨d, hd, -, hmax⟩, hi⟩
    rw [hd] at hi
    cases hi
    exact ⟨List.mem_of_getElem? hd, hmax⟩
  · rintro ⟨hmem, hmax⟩
    obtain ⟨i, hi⟩ := List.mem_iff_getElem?.mp hmem
    exact ⟨i, ⟨_, hi, rfl, hmax⟩, hi⟩

end PositionalStore

namespace Store

section Positions

variable [Blake3]

/-- The LIVE set and the LIVE positions show the same values, by position and by iteration. -/
structure LiveAgrees (store : Store) (ps : PositionalStore) : Prop where
  isLive : ∀ entity attr value, value ∈ (store.liveValues entity attr).getD ∅ ↔
    ∃ position tx, ps.isLive position = true ∧
      ps.datomAt position = some ⟨entity, attr, value, tx, .assert⟩
  liveDatoms : ∀ entity attr value, value ∈ (store.liveValues entity attr).getD ∅ ↔
    ∃ tx, (⟨entity, attr, value, tx, .assert⟩ : Datom) ∈ ps.liveDatoms

omit [Blake3] in
/-- A value is live at a key when its latest event there is an assertion. -/
theorem mem_liveAt_iff {causal : LiveCausal} {key : LiveKey} {value : Value} :
    value ∈ liveAt causal key ↔
      ∃ tx, OrdMap.get₂ causal key value = some (toLex (tx, .assert)) := by
  rw [mem_liveAt]
  constructor
  · rintro ⟨event, hevent, hop⟩
    refine ⟨(ofLex event).1, ?_⟩
    rw [hevent, ← hop]
    rfl
  · rintro ⟨tx, hget⟩
    exact ⟨_, hget, rfl⟩

/-- The live values of an attribute are those whose latest event is an assertion. -/
theorem mem_liveValues {store : Store} (h : store.obs.Valid) {entity : EntityId}
    {attr : Attribute} {value : Value} :
    value ∈ (store.liveValues entity attr).getD ∅ ↔
      ∃ tx, OrdMap.get₂ store.liveCausal (toLex (entity, attr)) value =
        some (toLex (tx, .assert)) := by
  have hlive : store.liveSet = deriveLiveSet store.liveCausal := h.live
  rw [liveValues, hlive, getD_deriveLiveSet, mem_liveAt_iff]

/-- A positional store has one position for each datom. -/
theorem length_canonical {store : Store} {ps : PositionalStore}
    (hrepr : store.repr = .positional ps) : ps.canonical.length = store.datomSet.card := by
  rw [datomSet, hrepr, StoreRepr.datomSet,
    List.toFinset_card_of_nodup (ps.sorted.imp ne_of_lt)]

/-- The positions of a reachable store show the assertions that are last in their triple. -/
theorem Reachable.factOf_mem_liveDatoms {store : Store} (h : Reachable store)
    {ps : PositionalStore} (hrepr : store.repr = .positional ps)
    (hcard : store.datomSet.card ≤ u32Max + 1) {key : LiveKey} {value : Value} {tx : TxId} :
    factOf key value tx .assert ∈ ps.liveDatoms ↔ AssertsLast store.datomSet key value tx := by
  have hset : store.datomSet = ps.canonical.toFinset := by
    rw [datomSet, hrepr]
    rfl
  rw [← length_canonical hrepr] at hcard
  rw [hset]
  exact PositionalStore.factOf_mem_liveDatoms (h.exact ps hrepr) hcard

/-- The positions of a reachable store agree with its LIVE set when no triple is tied. -/
theorem Reachable.liveAgrees {store : Store} (h : Reachable store) {ps : PositionalStore}
    (hrepr : store.repr = .positional ps) (hcard : store.datomSet.card ≤ u32Max + 1)
    (htied : ∀ key value, ¬ LatestTied store.datomSet key value) : store.LiveAgrees ps := by
  have hdatoms : ∀ entity attr value, value ∈ (store.liveValues entity attr).getD ∅ ↔
      ∃ tx, (⟨entity, attr, value, tx, .assert⟩ : Datom) ∈ ps.liveDatoms := by
    intro entity attr value
    rw [mem_liveValues h.valid]
    refine exists_congr fun tx => ?_
    have hcausal : CausalOf store.datomSet store.liveCausal := h.valid.causal
    rw [hcausal.assertsLast (htied _ _)]
    exact (h.factOf_mem_liveDatoms hrepr hcard).symm
  have hlength : ps.canonical.length ≤ u32Max + 1 := by rwa [length_canonical hrepr]
  refine ⟨fun entity attr value => ?_, hdatoms⟩
  rw [hdatoms, exists_comm]
  exact exists_congr fun tx => (PositionalStore.exists_isLive_iff hlength).symm

/-- The store over a datom set, rebuilt, is contiguous and prefers the assertion of a tie. -/
theorem fromDatoms_tied {datoms : Finset Datom} {key : LiveKey} {value : Value}
    (h : LatestTied datoms key value) :
    value ∈ ((fromDatoms datoms).liveValues (ofLex key).1 (ofLex key).2).getD ∅ := by
  obtain ⟨tx, hlatest, hassert, -⟩ := h
  refine (mem_liveValues (valid_ofPositional _ _ _ _ _)).mpr ⟨tx, ?_⟩
  show OrdMap.get₂ (fromDatoms datoms).liveCausal key value = _
  rw [liveCausal_fromDatoms]
  exact buildOf_of_assert hassert hlatest

/-- In the rebuilt store over a tied set the value is LIVE at no position. -/
theorem not_liveAgrees_of_tied {datoms : Finset Datom} (hcard : datoms.card ≤ u32Max + 1)
    {key : LiveKey} {value : Value} (h : LatestTied datoms key value) :
    ¬ (fromDatoms datoms).LiveAgrees (PositionalStore.fromDatoms (datoms.sort (· ≤ ·))) := by
  intro hagrees
  have hset := datomSet_fromDatoms datoms
  obtain ⟨tx, hmem⟩ := (hagrees.liveDatoms (ofLex key).1 (ofLex key).2 value).mp (fromDatoms_tied h)
  have hreach : Reachable (fromDatoms datoms) := .fromDatoms datoms
  have hlast := (hreach.factOf_mem_liveDatoms rfl (hset.symm ▸ hcard)).mp
    (hmem : factOf key value tx .assert ∈ _)
  rw [hset] at hlast
  exact h.not_assertsLast tx hlast

/-- The LIVE positions agree with the LIVE set in every reachable store over a datom set exactly
when no latest transaction of the set both asserts and retracts a triple. -/
theorem positional_live_iff {datoms : Finset Datom} (hcard : datoms.card ≤ u32Max + 1) :
    (∀ store ps, Reachable store → store.repr = .positional ps → store.datomSet = datoms →
      store.LiveAgrees ps) ↔ ∀ key value, ¬ LatestTied datoms key value := by
  constructor
  · intro hagrees key value htied
    exact not_liveAgrees_of_tied hcard htied
      (hagrees _ _ (.fromDatoms datoms) rfl (datomSet_fromDatoms datoms))
  · rintro htied store ps hreach hrepr rfl
    exact hreach.liveAgrees hrepr hcard htied

end Positions

/-- Facts of one transaction about one triple that have one operation leave no tie. -/
theorem not_tied_of_op {datoms : Finset Datom}
    (hop : ∀ d ∈ datoms, ∀ d' ∈ datoms, d.liveKey = d'.liveKey → d.value = d'.value →
      d.tx = d'.tx → d.op = d'.op) (key : LiveKey) (value : Value) :
    ¬ LatestTied datoms key value := by
  rintro ⟨tx, -, hassert, hretract⟩
  have heq := hop _ hassert _ hretract rfl rfl rfl
  cases heq

end Store

namespace Sample

/-- An operation on a text by a transaction of its own for every number. -/
def revision (text : String) (number : UInt64) (op : Op) : Datom :=
  ⟨entity, "db/doc", .string text, ⟨number, 0, NodeId.zero⟩, op⟩

/-- A text that is asserted and retracted, and one that is then asserted again. -/
def revised : Finset Datom :=
  {revision "x" 1 .assert, revision "x" 2 .retract, revision "y" 1 .assert,
    revision "y" 2 .retract, revision "y" 3 .assert}

/-- No two facts of the revised store tie. -/
theorem op_revised : ∀ d ∈ revised, ∀ d' ∈ revised, d.liveKey = d'.liveKey → d.value = d'.value →
    d.tx = d'.tx → d.op = d'.op := by
  decide +kernel

end Sample

open Sample

namespace Store

/-- The assertion and the retraction of one transaction tie. -/
theorem tied_retracted : LatestTied {asserted, retracted} asserted.liveKey (.string "x") := by
  refine ⟨tx, fun d hd _ _ => ?_, Finset.mem_insert_self _ _,
    Finset.mem_insert_of_mem (Finset.mem_singleton_self _)⟩
  rcases Finset.mem_insert.mp hd with rfl | hd
  · exact le_rfl
  · rw [Finset.mem_singleton.mp hd]
    exact le_rfl

/-- The store over texts that are retracted and asserted again. -/
theorem positional_live_revised :
    (fromDatoms revised).LiveAgrees
      (PositionalStore.fromDatoms (revised.sort (· ≤ ·))) := by
  have hcard : revised.card ≤ u32Max + 1 :=
    Finset.card_le_five.trans (Nat.le_of_ble_eq_true rfl)
  exact (positional_live_iff hcard).mpr (not_tied_of_op op_revised) _ _ (.fromDatoms revised) rfl
    (datomSet_fromDatoms revised)

/-- A transaction that asserts and retracts one fact: the fact is in the LIVE set, and no LIVE
position holds it. -/
theorem positional_live_counterexample :
    Reachable (fromDatoms {asserted, retracted}) ∧
      ¬ (fromDatoms {asserted, retracted}).LiveAgrees
        (PositionalStore.fromDatoms (({asserted, retracted} : Finset Datom).sort (· ≤ ·))) := by
  have hcard : ({asserted, retracted} : Finset Datom).card ≤ u32Max + 1 :=
    Finset.card_le_two.trans (Nat.le_of_ble_eq_true rfl)
  exact ⟨.fromDatoms _, not_liveAgrees_of_tied hcard tied_retracted⟩

end Store

end Ferratomic
