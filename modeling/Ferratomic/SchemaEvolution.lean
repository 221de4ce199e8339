import Ferratomic.Schema

/-!
# Schema evolution

The genesis meta-schema, and the installation of attributes from schema-defining datoms. The
main theorem, `evolveSchema_order_irrel`, says that when no two entities of a transaction define
the same `db/ident`, a successful evolution gives the same schema for every iteration order of
the source's hash map.
-/

namespace Ferratomic

open Lib

section Genesis

/-- An attribute definition of the genesis schema with one value and last-write-wins. -/
def lwwDef (valueType : ValueType) (doc : String) : AttributeDef :=
  ⟨valueType, .one, .lww, some doc⟩

/-- `lww_kw` -/
def lwwKw (doc : String) : AttributeDef := lwwDef .keyword doc

/-- `lww_str` -/
def lwwStr (doc : String) : AttributeDef := lwwDef .string doc

/-- `lww_bool` -/
def lwwBool (doc : String) : AttributeDef := lwwDef .boolean doc

/-- `lww_ref` -/
def lwwRef (doc : String) : AttributeDef := lwwDef .ref doc

/-- `lww_instant` -/
def lwwInstant (doc : String) : AttributeDef := lwwDef .instant doc

/-- `lww_bytes` -/
def lwwBytes (doc : String) : AttributeDef := lwwDef .bytes doc

/-- `mv_ref_many` -/
def mvRefMany (doc : String) : AttributeDef := ⟨.ref, .many, .multiValue, some doc⟩

/-- `define_meta_schema`: the `db/*` and `lattice/*` attributes. -/
def metaAttributes : List (Attribute × AttributeDef) :=
  [("db/ident", lwwKw "Attribute identity keyword"),
   ("db/valueType", lwwKw "Declared value type"),
   ("db/cardinality", lwwKw "Cardinality: one or many"),
   ("db/doc", lwwStr "Documentation string"),
   ("db/unique", lwwKw "Uniqueness constraint"),
   ("db/isComponent", lwwBool "Component ownership"),
   ("db/resolutionMode", lwwKw "CRDT conflict resolution mode"),
   ("db/latticeOrder", lwwRef "Reference to lattice definition"),
   ("db/lwwClock", lwwKw "LWW clock source"),
   ("lattice/ident", lwwKw "Lattice name"),
   ("lattice/elements", lwwStr "Ordered element list"),
   ("lattice/comparator", lwwStr "Comparison function"),
   ("lattice/bottom", lwwKw "Least element"),
   ("lattice/top", lwwKw "Greatest element")]

/-- `define_tx_schema`: the `tx/*` attributes. -/
def txAttributes : List (Attribute × AttributeDef) :=
  [("tx/derivation-input", mvRefMany "Input datoms for derivation (D20, Phase 4d)"),
   ("tx/derivation-rule", lwwKw "Rule that produced derivation (D20, Phase 4d)"),
   ("tx/derivation-source", lwwKw "Source of derived datoms (D20)"),
   ("tx/origin", lwwRef "Node that originated transaction"),
   ("tx/predecessor", mvRefMany "Causal predecessor entity refs (INV-FERR-061)"),
   ("tx/provenance", lwwKw "Epistemic confidence level (INV-FERR-063)"),
   ("tx/rationale", lwwStr "Why this transaction exists"),
   ("tx/signature", lwwBytes "Ed25519 signature bytes (INV-FERR-051)"),
   ("tx/signer", lwwBytes "Ed25519 verifying key bytes (INV-FERR-051)"),
   ("tx/time", lwwInstant "Transaction wall-clock time"),
   ("tx/validation-override", lwwStr "Manual validation exemption")]

/-- `genesis_schema`: the 25 axiomatic attributes. -/
def genesisSchema : Schema :=
  Schema.ofPairs (metaAttributes ++ txAttributes)

end Genesis

/-- `parse_value_type`: the type a `db.type/*` keyword names. -/
def parseValueType (keyword : String) : Option ValueType :=
  match keyword with
  | "db.type/keyword" => some .keyword
  | "db.type/string" => some .string
  | "db.type/long" => some .long
  | "db.type/double" => some .double
  | "db.type/boolean" => some .boolean
  | "db.type/instant" => some .instant
  | "db.type/uuid" => some .uuid
  | "db.type/bytes" => some .bytes
  | "db.type/ref" => some .ref
  | "db.type/bigint" => some .bigInt
  | "db.type/bigdec" => some .bigDec
  | _ => none

/-- `parse_cardinality`: the cardinality a `db.cardinality/*` keyword names. -/
def parseCardinality (keyword : String) : Option Cardinality :=
  match keyword with
  | "db.cardinality/one" => some .one
  | "db.cardinality/many" => some .many
  | _ => none

/-- `as_keyword`: the text of a keyword value. -/
def asKeyword : Value → Option String
  | .keyword text => some text
  | _ => none

/-- The meta-attributes seen so far on one entity. -/
structure PartialDef where
  ident : Option String
  vtype : Option ValueType
  card : Option Cardinality
  deriving DecidableEq

/-- Record a meta-attribute value; a different earlier value is a violation. -/
def recordValue {α : Type} [DecidableEq α] (field : String) (text : α → String)
    (previous : Option α) (value : α) : Except FerraError (Option α) :=
  match previous with
  | some prev =>
      if prev = value then .ok (some value)
      else .error (.schemaViolation field (text prev) (text value))
  | none => .ok (some value)

/-- One iteration of the loop of `extract_attribute_def`. -/
def extractStep (seen : PartialDef) (d : Datom) : Except FerraError PartialDef :=
  match asKeyword d.value with
  | none => .ok seen
  | some kw =>
      if d.attr = "db/ident" then do
        let ident ← recordValue "db/ident" id seen.ident kw
        pure { seen with ident }
      else if d.attr = "db/valueType" then
        match parseValueType kw with
        | none => .error (.schemaViolation "db/valueType" "recognized db.type/* keyword" kw)
        | some vt => do
            let vtype ← recordValue "db/valueType" ValueType.debug seen.vtype vt
            pure { seen with vtype }
      else if d.attr = "db/cardinality" then
        match parseCardinality kw with
        | none =>
            .error (.schemaViolation "db/cardinality" "recognized db.cardinality/* keyword" kw)
        | some c => do
            let card ← recordValue "db/cardinality" Cardinality.debug seen.card c
            pure { seen with card }
      else .ok seen

/-- `extract_attribute_def`: the attribute that the datoms of one entity define, if they carry
all three meta-attributes. -/
def extractAttributeDef (datoms : List Datom) :
    Except FerraError (Option (Attribute × AttributeDef)) := do
  let seen ← datoms.foldlM extractStep ⟨none, none, none⟩
  match seen with
  | ⟨some name, some vt, some c⟩ => pure (some (name, ⟨vt, c, .lww, none⟩))
  | _ => pure none

/-- An iteration order of a hash map: any rearrangement of its entries. -/
structure IterOrder where
  arrange : List (List Datom) → List (List Datom)
  perm : ∀ groups, (arrange groups).Perm groups

/-- The order of first arrival. -/
def IterOrder.arrival : IterOrder :=
  ⟨id, fun _ => List.Perm.refl _⟩

/-- The values of the `by_entity` map: the datoms of each entity in order of arrival. -/
def groupByEntity (datoms : List Datom) : List (List Datom) :=
  (datoms.map Datom.entity).dedup.map fun entity => datoms.filter (·.entity = entity)

/-- The loop of `evolve_schema` over the groups, with the schema it leaves on an error. -/
def installGroups (schema : Schema) : List (List Datom) → Except FerraError Unit × Schema
  | [] => (.ok (), schema)
  | group :: rest =>
      match extractAttributeDef group with
      | .error e => (.error e, schema)
      | .ok none => installGroups schema rest
      | .ok (some (attr, d)) => installGroups (schema.define attr d) rest

/-- `evolve_schema`: install the attributes that the datoms define. -/
def evolveSchema (order : IterOrder) (schema : Schema) (datoms : List Datom) :
    Except FerraError Unit × Schema :=
  installGroups schema (order.arrange (groupByEntity datoms))

/-- No two entities of the datoms define the same attribute. -/
def DistinctIdents (datoms : List Datom) : Prop :=
  ∀ e₁ e₂ attr d₁ d₂,
    extractAttributeDef (datoms.filter (·.entity = e₁)) = .ok (some (attr, d₁)) →
    extractAttributeDef (datoms.filter (·.entity = e₂)) = .ok (some (attr, d₂)) → e₁ = e₂

/-- The attribute a group defines, if any. -/
def groupDef (group : List Datom) : Option (Attribute × AttributeDef) :=
  match extractAttributeDef group with
  | .ok found => found
  | .error _ => none

/-- A group defines what is read from it without an error. -/
theorem groupDef_eq_some {group : List Datom} {found : Attribute × AttributeDef} :
    groupDef group = some found ↔ extractAttributeDef group = .ok (some found) := by
  unfold groupDef
  split <;> simp_all

/-- Install a list of definitions in order. -/
def defineAll (schema : Schema) (found : List (Attribute × AttributeDef)) : Schema :=
  found.foldl (fun schema pair => schema.define pair.1 pair.2) schema

/-- Evolution succeeds exactly when every group can be read. -/
theorem installGroups_fst_eq_ok {schema : Schema} {groups : List (List Datom)} :
    (installGroups schema groups).1 = .ok () ↔
      ∀ group ∈ groups, ∃ found, extractAttributeDef group = .ok found := by
  induction groups generalizing schema with
  | nil => simp [installGroups]
  | cons group rest ih =>
      rw [installGroups, List.forall_mem_cons]
      split
      case h_1 e h => simp [h]
      case h_2 h => simp [h, ih]
      case h_3 attr d h => simp [h, ih]

/-- A successful evolution installs what the groups define, in the order visited. -/
theorem installGroups_snd_of_ok {schema : Schema} {groups : List (List Datom)}
    (hok : (installGroups schema groups).1 = .ok ()) :
    (installGroups schema groups).2 = defineAll schema (groups.filterMap groupDef) := by
  induction groups generalizing schema with
  | nil => rfl
  | cons group rest ih =>
      rw [installGroups] at hok ⊢
      split at hok
      case h_1 e h => cases hok
      case h_2 h =>
          have hdef : groupDef group = none := by simp [groupDef, h]
          simp only [ih hok, List.filterMap_cons, hdef]
      case h_3 attr d h =>
          have hdef : groupDef group = some (attr, d) := groupDef_eq_some.mpr h
          simp only [ih hok, List.filterMap_cons, hdef, defineAll, List.foldl_cons]

/-- Definitions of different attributes commute. -/
theorem define_comm (schema : Schema) {a b : Attribute × AttributeDef}
    (h : a.1 = b.1 → a = b) :
    (schema.define a.1 a.2).define b.1 b.2 = (schema.define b.1 b.2).define a.1 a.2 := by
  refine OrdMap.ext fun probe => ?_
  simp only [Schema.getElem?_define]
  by_cases ha : a.1 = probe
  · by_cases hb : b.1 = probe
    · rw [h (ha.trans hb.symm)]
    · simp [ha, hb]
  · simp [ha]

/-- The groups are the datoms of the entities that occur. -/
theorem mem_groupByEntity {datoms group : List Datom} :
    group ∈ groupByEntity datoms ↔
      ∃ d ∈ datoms, group = datoms.filter (·.entity = d.entity) := by
  simp only [groupByEntity, List.mem_map, List.mem_dedup]
  constructor
  · rintro ⟨_, ⟨d, hd, rfl⟩, rfl⟩
    exact ⟨d, hd, rfl⟩
  · rintro ⟨d, hd, rfl⟩
    exact ⟨d.entity, ⟨d, hd, rfl⟩, rfl⟩

/-- Whether evolution succeeds does not depend on the iteration order. -/
theorem evolveSchema_ok_iff {order : IterOrder} {schema : Schema} {datoms : List Datom} :
    (evolveSchema order schema datoms).1 = .ok () ↔
      ∀ group ∈ groupByEntity datoms, ∃ found, extractAttributeDef group = .ok found := by
  rw [evolveSchema, installGroups_fst_eq_ok]
  simp only [(order.perm _).mem_iff]

/-- A value of a meta-attribute is refused as a schema violation. -/
theorem recordValue_error {α : Type} [DecidableEq α] {field : String} {text : α → String}
    {previous : Option α} {value : α} {e : FerraError}
    (h : recordValue field text previous value = .error e) :
    ∃ attr expected got, e = .schemaViolation attr expected got := by
  unfold recordValue at h
  split at h
  case h_1 prev =>
      split at h
      · cases h
      · cases h
        exact ⟨_, _, _, rfl⟩
  case h_2 => cases h

/-- A step that fails reports a schema violation. -/
theorem extractStep_error {seen : PartialDef} {d : Datom} {e : FerraError}
    (h : extractStep seen d = .error e) :
    ∃ attr expected got, e = .schemaViolation attr expected got := by
  -- each meta-attribute is parsed and then recorded; only its own two checks refuse it
  have hrecord {α : Type} {recorded : Except FerraError α} {put : α → PartialDef}
      (hbind : (recorded >>= fun found => pure (put found)) = .error e) : recorded = .error e := by
    cases recorded with
    | error _ => exact congrArg Except.error (Except.error.inj hbind)
    | ok _ => cases hbind
  unfold extractStep at h
  split at h
  case h_1 => cases h
  case h_2 kw _ =>
      split at h
      · exact recordValue_error (hrecord h)
      split at h
      · cases hparse : parseValueType kw with
        | none =>
            rw [hparse] at h
            cases h
            exact ⟨_, _, _, rfl⟩
        | some vt =>
            rw [hparse] at h
            exact recordValue_error (hrecord h)
      split at h
      · cases hparse : parseCardinality kw with
        | none =>
            rw [hparse] at h
            cases h
            exact ⟨_, _, _, rfl⟩
        | some c =>
            rw [hparse] at h
            exact recordValue_error (hrecord h)
      · cases h

/-- A definition that is not read reports a schema violation. -/
theorem extractAttributeDef_error {datoms : List Datom} {e : FerraError}
    (h : extractAttributeDef datoms = .error e) :
    ∃ attr expected got, e = .schemaViolation attr expected got := by
  have hfold (seen : PartialDef) (herr : datoms.foldlM extractStep seen = .error e) :
      ∃ attr expected got, e = .schemaViolation attr expected got := by
    clear h
    induction datoms generalizing seen with
    | nil => cases herr
    | cons d rest ih =>
        rw [List.foldlM_cons] at herr
        cases hstep : extractStep seen d with
        | error _ =>
            rw [hstep] at herr
            cases herr
            exact extractStep_error hstep
        | ok next =>
            rw [hstep] at herr
            exact ih next herr
  unfold extractAttributeDef at h
  cases hread : datoms.foldlM extractStep ⟨none, none, none⟩ with
  | error _ =>
      rw [hread] at h
      cases h
      exact hfold _ hread
  | ok seen =>
      rw [hread] at h
      obtain ⟨_ | _, _ | _, _ | _⟩ := seen <;> cases h

/-- Evolution fails with a schema violation only. -/
theorem evolveSchema_error {order : IterOrder} {schema : Schema} {datoms : List Datom}
    {e : FerraError} (h : (evolveSchema order schema datoms).1 = .error e) :
    ∃ attr expected got, e = .schemaViolation attr expected got := by
  rw [evolveSchema] at h
  generalize order.arrange (groupByEntity datoms) = groups at h
  induction groups generalizing schema with
  | nil => cases h
  | cons group rest ih =>
      rw [installGroups] at h
      split at h
      case h_1 e' hread =>
          cases h
          exact extractAttributeDef_error hread
      case h_2 => exact ih h
      case h_3 => exact ih h

/-- With distinct identifiers, definitions found in two groups agree or differ in name. -/
theorem DistinctIdents.eq_of_name_eq {datoms : List Datom} (h : DistinctIdents datoms)
    {a b : Attribute × AttributeDef} (ha : a ∈ (groupByEntity datoms).filterMap groupDef)
    (hb : b ∈ (groupByEntity datoms).filterMap groupDef) (hname : a.1 = b.1) : a = b := by
  obtain ⟨ga, hga, hda⟩ := List.mem_filterMap.mp ha
  obtain ⟨gb, hgb, hdb⟩ := List.mem_filterMap.mp hb
  obtain ⟨da, -, rfl⟩ := mem_groupByEntity.mp hga
  obtain ⟨db, -, rfl⟩ := mem_groupByEntity.mp hgb
  have hentity : da.entity = db.entity :=
    h da.entity db.entity a.1 a.2 b.2 (groupDef_eq_some.mp hda)
      (by rw [hname]; exact groupDef_eq_some.mp hdb)
  rw [hentity, hdb] at hda
  exact (Option.some.inj hda).symm

/-- With distinct identifiers a successful evolution does not depend on the iteration order. -/
theorem evolveSchema_order_irrel {datoms : List Datom} (h : DistinctIdents datoms)
    {order : IterOrder} {schema : Schema}
    (hok : (evolveSchema order schema datoms).1 = .ok ()) (other : IterOrder) :
    evolveSchema other schema datoms = evolveSchema order schema datoms := by
  have hok' : (evolveSchema other schema datoms).1 = .ok () :=
    evolveSchema_ok_iff.mpr (evolveSchema_ok_iff.mp hok)
  have hperm : ((other.arrange (groupByEntity datoms)).filterMap groupDef).Perm
      ((order.arrange (groupByEntity datoms)).filterMap groupDef) :=
    ((other.perm _).trans (order.perm _).symm).filterMap groupDef
  have hmem : ∀ found ∈ (other.arrange (groupByEntity datoms)).filterMap groupDef,
      found ∈ (groupByEntity datoms).filterMap groupDef := fun found hfound =>
    ((other.perm _).filterMap groupDef).mem_iff.mp hfound
  refine Prod.ext (hok'.trans hok.symm) ?_
  rw [evolveSchema, evolveSchema, installGroups_snd_of_ok hok', installGroups_snd_of_ok hok,
    defineAll, defineAll]
  refine hperm.foldl_eq' (fun a ha b hb s => ?_) schema
  exact define_comm s (h.eq_of_name_eq (hmem a ha) (hmem b hb))

/-- A definition that no other one of the same name contradicts is found afterwards. -/
theorem getElem?_defineAll {found : List (Attribute × AttributeDef)} {attr : Attribute}
    {d : AttributeDef} (hmem : (attr, d) ∈ found)
    (hsame : ∀ pair ∈ found, pair.1 = attr → pair.2 = d) (schema : Schema) :
    (defineAll schema found)[attr]? = some d := by
  -- the last definition decides, so the induction is from the end
  induction found using List.reverseRecOn with
  | nil => exact absurd hmem List.not_mem_nil
  | append_singleton rest pair ih =>
      rw [defineAll, List.foldl_append, List.foldl_cons, List.foldl_nil, Schema.getElem?_define]
      by_cases hname : pair.1 = attr
      · rw [if_pos hname, hsame pair (List.mem_append_right _ List.mem_cons_self) hname]
      · rw [if_neg hname]
        rcases List.mem_append.mp hmem with hrest | hlast
        · exact ih hrest fun other hother => hsame other (List.mem_append_left _ hother)
        · exact absurd (List.mem_singleton.mp hlast ▸ rfl) hname

/-- An entity without datoms defines nothing. -/
theorem exists_of_extractAttributeDef {datoms : List Datom} {entity : EntityId}
    {pair : Attribute × AttributeDef}
    (h : extractAttributeDef (datoms.filter (·.entity = entity)) = .ok (some pair)) :
    ∃ d ∈ datoms, d.entity = entity := by
  by_contra hnone
  have hempty : datoms.filter (·.entity = entity) = [] := by
    refine List.filter_eq_nil_iff.mpr fun d hd hentity => hnone ⟨d, hd, ?_⟩
    exact of_decide_eq_true hentity
  rw [hempty] at h
  cases h

/-- With distinct identifiers, evolution installs what an entity defines. -/
theorem getElem?_evolveSchema {datoms : List Datom} (hdistinct : DistinctIdents datoms)
    {order : IterOrder} {schema : Schema} (hok : (evolveSchema order schema datoms).1 = .ok ())
    {entity : EntityId} {attr : Attribute} {d : AttributeDef}
    (hdef : extractAttributeDef (datoms.filter (·.entity = entity)) = .ok (some (attr, d))) :
    (evolveSchema order schema datoms).2[attr]? = some d := by
  have hfound {pair : Attribute × AttributeDef} :
      pair ∈ (order.arrange (groupByEntity datoms)).filterMap groupDef ↔
        pair ∈ (groupByEntity datoms).filterMap groupDef :=
    ((order.perm _).filterMap groupDef).mem_iff
  have hmem : (attr, d) ∈ (groupByEntity datoms).filterMap groupDef := by
    obtain ⟨datom, hdatom, rfl⟩ := exists_of_extractAttributeDef hdef
    refine List.mem_filterMap.mpr ⟨_, mem_groupByEntity.mpr ⟨datom, hdatom, rfl⟩, ?_⟩
    exact groupDef_eq_some.mpr hdef
  rw [evolveSchema, installGroups_snd_of_ok hok]
  refine getElem?_defineAll (hfound.mpr hmem) (fun pair hpair hname => ?_) schema
  exact congrArg Prod.snd (hdistinct.eq_of_name_eq (hfound.mp hpair) hmem hname)

end Ferratomic
