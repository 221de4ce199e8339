import Ferratomic.Store.Stamped
import Ferratomic.Store.Representation

/-!
# Iteration orders of schema evolution

Schema evolution visits the entities of a transaction in the iteration order of a hash map, installs
what each defines and stops at the first that it cannot read. After transactions that can all be
read, an attribute has a definition of the last transaction that defines it, and each of the
definitions that this transaction gives it is the outcome of some order (`getElem?_evolveAll`,
`exists_evolveAll`). The main theorem, `evolveSchema_orderFree_iff`, says when the outcome is the
same in every order.
-/

namespace Ferratomic

open Lib

/-- What the entities of datoms can be read to define. -/
def definitions (datoms : List Datom) : List (Attribute × AttributeDef) :=
  (groupByEntity datoms).filterMap groupDef

/-- Every entity of the datoms can be read. -/
def Readable (datoms : List Datom) : Prop :=
  ∀ group ∈ groupByEntity datoms, ∃ found, extractAttributeDef group = .ok found

/-- The transactions that define an attribute end with one that gives it a definition. -/
def LastDefines (lists : List (List Datom)) (attr : Attribute) (d : AttributeDef) : Prop :=
  ∃ before last after, lists = before ++ last :: after ∧ (attr, d) ∈ definitions last ∧
    ∀ later ∈ after, ∀ other, (attr, other) ∉ definitions later

/-- The schema after the transactions, each in its order. -/
def evolveAll (orders : Nat → IterOrder) (index : Nat) (schema : Schema) :
    List (List Datom) → Schema
  | [] => schema
  | datoms :: rest =>
      evolveAll orders (index + 1) (evolveSchema (orders index) schema datoms).2 rest

section Groups

variable {schema : Schema} {attr : Attribute} {d : AttributeDef} {datoms : List Datom}

/-- A lookup after installing definitions finds one of them, or what was there. -/
theorem getElem?_defineAll_cases (found : List (Attribute × AttributeDef)) (schema : Schema)
    (attr : Attribute) :
    (∃ d, (attr, d) ∈ found ∧ (defineAll schema found)[attr]? = some d) ∨
      (∀ d, (attr, d) ∉ found) ∧ (defineAll schema found)[attr]? = schema[attr]? := by
  -- the last definition decides, so the induction is from the end
  induction found using List.reverseRecOn with
  | nil => exact .inr ⟨fun d => List.not_mem_nil, rfl⟩
  | append_singleton rest pair ih =>
      rw [defineAll, List.foldl_append, List.foldl_cons, List.foldl_nil, Schema.getElem?_define]
      by_cases hname : pair.1 = attr
      · subst hname
        rw [if_pos rfl]
        exact .inl ⟨pair.2, List.mem_append_right _ List.mem_cons_self, rfl⟩
      · rw [if_neg hname]
        rcases ih with ⟨d, hmem, hfound⟩ | ⟨hnone, hsame⟩
        · exact .inl ⟨d, List.mem_append_left _ hmem, hfound⟩
        · refine .inr ⟨fun d hd => ?_, hsame⟩
          rcases List.mem_append.mp hd with hd | hd
          · exact hnone d hd
          · exact hname (congrArg Prod.fst (List.mem_singleton.mp hd)).symm

/-- A visit of groups installs some of what they define, also when it stops at an error. -/
theorem exists_installGroups (schema : Schema) (groups : List (List Datom)) :
    ∃ found, (∀ pair ∈ found, pair ∈ groups.filterMap groupDef) ∧
      (installGroups schema groups).2 = defineAll schema found := by
  induction groups generalizing schema with
  | nil => exact ⟨[], fun pair hpair => hpair, rfl⟩
  | cons group rest ih =>
      rw [installGroups]
      cases hread : extractAttributeDef group with
      | error e => exact ⟨[], fun pair hpair => absurd hpair List.not_mem_nil, rfl⟩
      | ok found =>
          have hdef : groupDef group = found := by rw [groupDef, hread]
          rw [List.filterMap_cons, hdef]
          cases found with
          | none => exact ih schema
          | some pair =>
              obtain ⟨found, hfound, hsame⟩ := ih (schema.define pair.1 pair.2)
              refine ⟨pair :: found, fun other hother => ?_, hsame⟩
              rcases List.mem_cons.mp hother with rfl | hother
              · exact List.mem_cons_self
              · exact List.mem_cons_of_mem _ (hfound other hother)

/-- Every rearrangement of the groups is visited in some order. -/
theorem exists_order {groups : List (List Datom)} (h : groups.Perm (groupByEntity datoms)) :
    ∃ order : IterOrder, order.arrange (groupByEntity datoms) = groups := by
  let order : IterOrder :=
    { arrange := fun other => if groups.Perm other then groups else other
      perm := fun other => by
        split
        case isTrue hperm => exact hperm
        case isFalse => exact List.Perm.refl other }
  exact ⟨order, if_pos h⟩

/-- What is visited in an order are the definitions of the datoms. -/
theorem mem_arrange (order : IterOrder) {pair : Attribute × AttributeDef} :
    pair ∈ (order.arrange (groupByEntity datoms)).filterMap groupDef ↔
      pair ∈ definitions datoms :=
  ((order.perm _).filterMap groupDef).mem_iff

/-- A definition is one that some entity's datoms give. -/
theorem mem_definitions {pair : Attribute × AttributeDef} :
    pair ∈ definitions datoms ↔
      ∃ group ∈ groupByEntity datoms, extractAttributeDef group = .ok (some pair) := by
  simp only [definitions, List.mem_filterMap, groupDef_eq_some]

/-- A lookup after datoms that can be read finds one of their definitions, or what was there. -/
theorem getElem?_evolveSchema_cases (order : IterOrder) (hread : Readable datoms)
    (schema : Schema) (attr : Attribute) :
    (∃ d, (attr, d) ∈ definitions datoms ∧
        (evolveSchema order schema datoms).2[attr]? = some d) ∨
      (∀ d, (attr, d) ∉ definitions datoms) ∧
        (evolveSchema order schema datoms).2[attr]? = schema[attr]? := by
  have hok : (evolveSchema order schema datoms).1 = .ok () := evolveSchema_ok_iff.mpr hread
  rw [evolveSchema, installGroups_snd_of_ok hok]
  simp only [← mem_arrange order]
  exact getElem?_defineAll_cases _ schema attr

/-- The group of a definition can be visited last, and then the definition is installed. -/
theorem exists_evolveSchema (hread : Readable datoms) (hmem : (attr, d) ∈ definitions datoms) :
    ∃ order, ∀ schema, (evolveSchema order schema datoms).2[attr]? = some d := by
  obtain ⟨group, hgroup, hdef⟩ := mem_definitions.mp hmem
  have hperm : ((groupByEntity datoms).erase group ++ [group]).Perm (groupByEntity datoms) :=
    (List.perm_append_singleton _ _).trans (List.perm_cons_erase hgroup).symm
  obtain ⟨order, harrange⟩ := exists_order hperm
  refine ⟨order, fun schema => ?_⟩
  have hok : (evolveSchema order schema datoms).1 = .ok () := evolveSchema_ok_iff.mpr hread
  rw [evolveSchema, installGroups_snd_of_ok hok, harrange, List.filterMap_append, defineAll,
    List.foldl_append]
  have hlast : [group].filterMap groupDef = [(attr, d)] := by
    rw [List.filterMap_cons, groupDef_eq_some.mpr hdef]
    rfl
  rw [hlast, List.foldl_cons, List.foldl_nil, Schema.getElem?_define, if_pos rfl]

/-- A group that cannot be read can be visited first, and then nothing is installed. -/
theorem exists_evolveSchema_error (hread : ¬ Readable datoms) :
    ∃ order, ∀ schema, (evolveSchema order schema datoms).2 = schema := by
  simp only [Readable, not_forall] at hread
  obtain ⟨bad, hbad, herror⟩ := hread
  obtain ⟨order, harrange⟩ := exists_order (List.perm_cons_erase hbad).symm
  refine ⟨order, fun schema => ?_⟩
  rw [evolveSchema, harrange, installGroups]
  cases hextract : extractAttributeDef bad with
  | error e => rfl
  | ok found => exact absurd ⟨found, hextract⟩ herror

/-- A group that can be read can be visited alone before one that cannot. -/
theorem exists_evolveSchema_before_error (hread : ¬ Readable datoms)
    (hmem : (attr, d) ∈ definitions datoms) :
    ∃ order, ∀ schema, (evolveSchema order schema datoms).2 = schema.define attr d := by
  simp only [Readable, not_forall] at hread
  obtain ⟨bad, hbad, herror⟩ := hread
  obtain ⟨group, hgroup, hdef⟩ := mem_definitions.mp hmem
  have hne : bad ≠ group := by
    rintro rfl
    exact herror ⟨_, hdef⟩
  have hbad' : bad ∈ (groupByEntity datoms).erase group := (List.mem_erase_of_ne hne).mpr hbad
  have hperm : (group :: bad :: ((groupByEntity datoms).erase group).erase bad).Perm
      (groupByEntity datoms) :=
    ((List.perm_cons_erase hbad').symm.cons group).trans (List.perm_cons_erase hgroup).symm
  obtain ⟨order, harrange⟩ := exists_order hperm
  refine ⟨order, fun schema => ?_⟩
  rw [evolveSchema, harrange]
  simp only [installGroups, hdef]
  cases hextract : extractAttributeDef bad with
  | error e => rfl
  | ok found => exact absurd ⟨found, hextract⟩ herror

/-- Definitions that the schema has already change nothing. -/
theorem defineAll_of_present {found : List (Attribute × AttributeDef)}
    (h : ∀ pair ∈ found, schema[pair.1]? = some pair.2) : defineAll schema found = schema := by
  refine OrdMap.ext fun attr => ?_
  rcases getElem?_defineAll_cases found schema attr with ⟨d, hmem, hd⟩ | ⟨-, hsame⟩
  · rw [hd]
    exact (h (attr, d) hmem).symm
  · exact hsame

/-- Evolution leaves a schema as it is that has all definitions already. -/
theorem evolveSchema_of_present (order : IterOrder)
    (h : ∀ attr d, (attr, d) ∈ definitions datoms → schema[attr]? = some d) :
    (evolveSchema order schema datoms).2 = schema := by
  obtain ⟨found, hfound, hsame⟩ :=
    exists_installGroups schema (order.arrange (groupByEntity datoms))
  rw [evolveSchema, hsame]
  exact defineAll_of_present fun pair hpair => h _ _ ((mem_arrange order).mp (hfound pair hpair))

end Groups

section Lists

variable {lists : List (List Datom)} {attr : Attribute} {d : AttributeDef}

/-- A last definition is in one of the lists. -/
theorem LastDefines.exists_mem (h : LastDefines lists attr d) :
    ∃ last ∈ lists, (attr, d) ∈ definitions last := by
  obtain ⟨before, last, after, rfl, hmem, -⟩ := h
  exact ⟨last, List.mem_append_right _ List.mem_cons_self, hmem⟩

/-- A last definition stays the last behind one more first list. -/
theorem LastDefines.cons (h : LastDefines lists attr d) (first : List Datom) :
    LastDefines (first :: lists) attr d := by
  obtain ⟨before, last, after, rfl, hmem, hnone⟩ := h
  exact ⟨first :: before, last, after, rfl, hmem, hnone⟩

/-- An attribute is last defined in the later lists, or in the first when they do not define it. -/
theorem lastDefines_cons {first : List Datom} :
    LastDefines (first :: lists) attr d ↔
      LastDefines lists attr d ∨
        (attr, d) ∈ definitions first ∧
        ∀ later ∈ lists, ∀ other, (attr, other) ∉ definitions later := by
  constructor
  · rintro ⟨before, last, after, hsplit, hmem, hnone⟩
    cases before with
    | nil =>
        cases hsplit
        exact .inr ⟨hmem, hnone⟩
    | cons head before =>
        cases hsplit
        exact .inl ⟨before, last, after, rfl, hmem, hnone⟩
  · rintro (h | ⟨hmem, hnone⟩)
    · exact h.cons first
    · exact ⟨[], first, lists, rfl, hmem, hnone⟩

/-- A lookup after transactions finds a last definition, or what was there. -/
theorem getElem?_evolveAll (hread : ∀ datoms ∈ lists, Readable datoms) (orders : Nat → IterOrder)
    (index : Nat) (schema : Schema) (attr : Attribute) :
    (∃ d, LastDefines lists attr d ∧ (evolveAll orders index schema lists)[attr]? = some d) ∨
      (∀ datoms ∈ lists, ∀ d, (attr, d) ∉ definitions datoms) ∧
        (evolveAll orders index schema lists)[attr]? = schema[attr]? := by
  induction lists generalizing index schema with
  | nil => exact .inr ⟨fun datoms hdatoms => absurd hdatoms List.not_mem_nil, rfl⟩
  | cons first rest ih =>
      obtain ⟨hfirst, hrest⟩ := List.forall_mem_cons.mp hread
      rw [evolveAll]
      rcases ih hrest (index + 1) (evolveSchema (orders index) schema first).2 with
        ⟨d, hlast, hd⟩ | ⟨hnone, hsame⟩
      · exact .inl ⟨d, hlast.cons first, hd⟩
      · rw [hsame]
        rcases getElem?_evolveSchema_cases (orders index) hfirst schema attr with
          ⟨d, hmem, hd⟩ | ⟨habsent, hkept⟩
        · exact .inl ⟨d, lastDefines_cons.mpr (.inr ⟨hmem, hnone⟩), hd⟩
        · exact .inr ⟨List.forall_mem_cons.mpr ⟨habsent, hnone⟩, hkept⟩

/-- Every last definition is found after some orders. -/
theorem exists_evolveAll (hread : ∀ datoms ∈ lists, Readable datoms)
    (h : LastDefines lists attr d) (index : Nat) :
    ∃ orders, ∀ schema, (evolveAll orders index schema lists)[attr]? = some d := by
  induction lists generalizing index with
  | nil =>
      obtain ⟨before, last, after, hsplit, -⟩ := h
      exact absurd hsplit.symm (List.append_ne_nil_of_right_ne_nil _ (List.cons_ne_nil _ _))
  | cons first rest ih =>
      obtain ⟨hfirst, hrest⟩ := List.forall_mem_cons.mp hread
      rcases lastDefines_cons.mp h with hlast | ⟨hmem, hnone⟩
      · obtain ⟨orders, horders⟩ := ih hrest hlast (index + 1)
        exact ⟨orders, fun schema => horders _⟩
      · obtain ⟨order, horder⟩ := exists_evolveSchema hfirst hmem
        refine ⟨fun _ => order, fun schema => ?_⟩
        rw [evolveAll]
        rcases getElem?_evolveAll hrest (fun _ => order) (index + 1)
          (evolveSchema order schema first).2 attr with ⟨other, hlast, -⟩ | ⟨-, hsame⟩
        · obtain ⟨last, hmem', hother⟩ := hlast.exists_mem
          exact absurd hother (hnone last hmem' other)
        · rw [hsame]
          exact horder schema

/-- The schema after transactions is the same in all orders if and only if the last transaction that
defines an attribute defines it in one way. -/
theorem evolveAll_eq_iff (hread : ∀ datoms ∈ lists, Readable datoms) (index : Nat)
    (schema : Schema) :
    (∀ orders others,
      evolveAll orders index schema lists = evolveAll others index schema lists) ↔
    ∀ attr d d', LastDefines lists attr d → LastDefines lists attr d' → d = d' := by
  constructor
  · intro hsame attr d d' hd hd'
    obtain ⟨orders, horders⟩ := exists_evolveAll hread hd index
    obtain ⟨others, hothers⟩ := exists_evolveAll hread hd' index
    have hfound := horders schema
    rw [hsame orders others, hothers] at hfound
    exact (Option.some.inj hfound).symm
  · intro hunique orders others
    refine OrdMap.ext fun attr => ?_
    rcases getElem?_evolveAll hread orders index schema attr with ⟨d, hd, hfound⟩ | ⟨hnone, hkept⟩
    · rcases getElem?_evolveAll hread others index schema attr with
        ⟨d', hd', hfound'⟩ | ⟨hnone', -⟩
      · rw [hfound, hfound', hunique attr d d' hd hd']
      · obtain ⟨last, hlast, hmem⟩ := hd.exists_mem
        exact absurd hmem (hnone' last hlast d)
    · rcases getElem?_evolveAll hread others index schema attr with ⟨d', hd', -⟩ | ⟨-, hkept'⟩
      · obtain ⟨last, hlast, hmem⟩ := hd'.exists_mem
        exact absurd hmem (hnone last hlast d')
      · rw [hkept, hkept']

/-- The orders of later transactions play no part. -/
theorem evolveAll_congr {orders others : Nat → IterOrder} {index : Nat}
    (h : ∀ i, i < index + lists.length → orders i = others i) (schema : Schema) :
    evolveAll orders index schema lists = evolveAll others index schema lists := by
  induction lists generalizing index schema with
  | nil => rfl
  | cons first rest ih =>
      rw [List.length_cons] at h
      rw [evolveAll, evolveAll, h index (by omega)]
      exact ih (fun i hi => h i (by omega)) _

/-- Transactions that define the same define the same last. -/
theorem lastDefines_map {α : Type} {items : List α} {f g : α → List Datom}
    (h : ∀ item pair, pair ∈ definitions (f item) ↔ pair ∈ definitions (g item)) :
    LastDefines (items.map f) attr d ↔ LastDefines (items.map g) attr d := by
  induction items with
  | nil => rfl
  | cons first rest ih =>
      rw [List.map_cons, List.map_cons, lastDefines_cons, lastDefines_cons, ih]
      simp only [h, List.forall_mem_map]

end Lists

section Replicas

/-- Both succeed or both fail, and they leave the same schema. -/
def SameEvolution (a b : Except FerraError Unit × Schema) : Prop :=
  (a.1 = .ok () ↔ b.1 = .ok ()) ∧ a.2 = b.2

variable [Blake3]

/-- The replay of an entry evolves the schema by its datoms. -/
theorem schema_replayEntry (order : IterOrder) (store : Store) (epoch : UInt64)
    (datoms : List Datom) : (Store.replayEntry order store epoch datoms).2.schema =
      (evolveSchema order store.schema datoms).2 := by
  have hobs := congrArg Observation.schema (Store.obs_foldl_insert store datoms)
  rw [Observation.addDatoms_eq] at hobs
  have hschema : (datoms.foldl Store.insert store).schema = store.schema := hobs
  rw [Store.replayEntry, hschema]

/-- Evolution gives the same in every iteration order, and replicas with one schema that replay the
same datoms get the same schema, if and only if: where every entity can be read, no two of them
define an attribute differently; and where one cannot, the schema has all that the others define. -/
theorem evolveSchema_orderFree_iff (schema : Schema) (datoms : List Datom) :
    ((∀ order other,
        SameEvolution (evolveSchema order schema datoms) (evolveSchema other schema datoms)) ∧
      ∀ (a b : Store) epoch order other, a.schema = schema → b.schema = schema →
        (Store.replayEntry order a epoch datoms).2.schema =
          (Store.replayEntry other b epoch datoms).2.schema) ↔
    (Readable datoms → ∀ attr d d', (attr, d) ∈ definitions datoms →
        (attr, d') ∈ definitions datoms → d = d') ∧
      (¬ Readable datoms → ∀ attr d, (attr, d) ∈ definitions datoms → schema[attr]? = some d) := by
  constructor
  · rintro ⟨hsame, -⟩
    refine ⟨fun hread attr d d' hd hd' => ?_, fun hread attr d hd => ?_⟩
    · -- either of the two can be visited last
      obtain ⟨order, horder⟩ := exists_evolveSchema hread hd
      obtain ⟨other, hother⟩ := exists_evolveSchema hread hd'
      have hfound := horder schema
      rw [(hsame order other).2, hother schema] at hfound
      exact (Option.some.inj hfound).symm
    · -- the error can be met before and after the definition
      obtain ⟨order, horder⟩ := exists_evolveSchema_before_error hread hd
      obtain ⟨other, hother⟩ := exists_evolveSchema_error hread
      have hschema := (hsame order other).2
      rw [horder, hother] at hschema
      rw [← hschema, Schema.getElem?_define, if_pos rfl]
  · rintro ⟨hagree, hpresent⟩
    have hsame (order other : IterOrder) :
        SameEvolution (evolveSchema order schema datoms) (evolveSchema other schema datoms) := by
      refine ⟨evolveSchema_ok_iff.trans evolveSchema_ok_iff.symm, ?_⟩
      by_cases hread : Readable datoms
      · refine OrdMap.ext fun attr => ?_
        rcases getElem?_evolveSchema_cases order hread schema attr with
          ⟨d, hmem, hd⟩ | ⟨hnone, hkept⟩
        · rcases getElem?_evolveSchema_cases other hread schema attr with
            ⟨d', hmem', hd'⟩ | ⟨hnone', -⟩
          · rw [hd, hd', hagree hread attr d d' hmem hmem']
          · exact absurd hmem (hnone' d)
        · rcases getElem?_evolveSchema_cases other hread schema attr with
            ⟨d', hmem', -⟩ | ⟨-, hkept'⟩
          · exact absurd hmem' (hnone d')
          · rw [hkept, hkept']
      · rw [evolveSchema_of_present order (hpresent hread),
          evolveSchema_of_present other (hpresent hread)]
    refine ⟨hsame, fun a b epoch order other ha hb => ?_⟩
    rw [schema_replayEntry, schema_replayEntry, ha, hb]
    exact (hsame order other).2

end Replicas

section Sample

open Sample

/-- Two entities define one attribute: the schema depends on which of them is visited last. -/
theorem evolveSchema_order_splits :
    ¬ SameEvolution (evolveSchema .arrival genesisSchema defineTwice.datoms)
        (evolveSchema lastArrival genesisSchema defineTwice.datoms) ∧
      (Store.replayEntry .arrival .genesis 1 defineTwice.datoms).2.schema ≠
        (Store.replayEntry lastArrival .genesis 1 defineTwice.datoms).2.schema := by
  have hlong : (evolveSchema .arrival genesisSchema defineTwice.datoms).2["user/name"]? =
      some ⟨.long, .one, .lww, none⟩ := by decide +kernel
  have hstring : (evolveSchema lastArrival genesisSchema defineTwice.datoms).2["user/name"]? =
      some ⟨.string, .one, .lww, none⟩ := by decide +kernel
  have hne : (evolveSchema .arrival genesisSchema defineTwice.datoms).2 ≠
      (evolveSchema lastArrival genesisSchema defineTwice.datoms).2 := by
    intro heq
    rw [heq, hstring] at hlong
    exact absurd (Option.some.inj hlong) (by decide)
  refine ⟨fun hsame => hne hsame.2, ?_⟩
  rw [schema_replayEntry, schema_replayEntry]
  exact hne

end Sample

end Ferratomic
