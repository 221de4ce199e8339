import Ferratomic.Store.Apply

/-!
# Building and committing transactions

A transaction collects datoms under a placeholder identifier and is committed against a schema:
every datom needs an attribute of the schema and a value of its declared type. The main theorem,
`validateDatoms_ok_iff`, says that this is all that validation checks.
-/

namespace Ferratomic

open Lib

/-- `value_matches_type`: each kind of value has one type. -/
def valueMatchesType : Value → ValueType → Bool
  | .keyword _, .keyword => true
  | .string _, .string => true
  | .long _, .long => true
  | .double _, .double => true
  | .bool _, .boolean => true
  | .instant _, .instant => true
  | .uuid _, .uuid => true
  | .bytes _, .bytes => true
  | .ref _, .ref => true
  | .bigInt _, .bigInt => true
  | .bigDec _, .bigDec => true
  | _, _ => false

/-- `TxValidationError`, with the type and the value whose `Debug` texts the source prints. -/
inductive TxValidationError where
  | unknownAttribute (attr : Attribute)
  | schemaViolation (attr : Attribute) (expected : ValueType) (got : Value)

/-- The conversion to `FerraError`; `debug` is the `Debug` text of a value. -/
def TxValidationError.toFerraError (debug : Value → String) : TxValidationError → FerraError
  | unknownAttribute attr => .unknownAttribute attr
  | schemaViolation attr expected got => .schemaViolation attr expected.debug (debug got)

/-- `validate_datoms`: the first datom that the schema does not admit is reported. -/
def validateDatoms (schema : Schema) : List Datom → Except TxValidationError Unit
  | [] => .ok ()
  | d :: rest =>
      match schema[d.attr]? with
      | none => .error (.unknownAttribute d.attr)
      | some attrDef =>
          if valueMatchesType d.value attrDef.valueType then validateDatoms schema rest
          else .error (.schemaViolation d.attr attrDef.valueType d.value)

namespace Transaction

/-- `new`: a transaction without datoms. -/
def new (node : NodeId) : Transaction :=
  ⟨node, []⟩

/-- The identifier of a datom before its transaction is applied. -/
def placeholderTx : TxId :=
  ⟨0, 0, NodeId.zero⟩

/-- `assert_datom` -/
def assertDatom (transaction : Transaction) (entity : EntityId) (attr : Attribute)
    (value : Value) : Transaction :=
  { transaction with
    datoms := transaction.datoms ++ [⟨entity, attr, value, placeholderTx, .assert⟩] }

/-- `retract_datom` -/
def retractDatom (transaction : Transaction) (entity : EntityId) (attr : Attribute)
    (value : Value) : Transaction :=
  { transaction with
    datoms := transaction.datoms ++ [⟨entity, attr, value, placeholderTx, .retract⟩] }

/-- `commit`: validate and seal a transaction. -/
def commit (transaction : Transaction) (schema : Schema) : Except TxValidationError Transaction :=
  match validateDatoms schema transaction.datoms with
  | .error e => .error e
  | .ok () => .ok transaction

end Transaction

/-- The only type that a value matches. -/
def Value.valueType : Value → ValueType
  | .keyword _ => .keyword
  | .string _ => .string
  | .long _ => .long
  | .double _ => .double
  | .bool _ => .boolean
  | .instant _ => .instant
  | .uuid _ => .uuid
  | .bytes _ => .bytes
  | .ref _ => .ref
  | .bigInt _ => .bigInt
  | .bigDec _ => .bigDec

/-- A value matches its own type only. -/
theorem valueMatchesType_iff {value : Value} {valueType : ValueType} :
    valueMatchesType value valueType ↔ valueType = value.valueType := by
  cases value <;> cases valueType <;> simp [valueMatchesType, Value.valueType]

/-- Every datom has an attribute of the schema and a value of its declared type. -/
def WellTyped (schema : Schema) (datoms : List Datom) : Prop :=
  ∀ d ∈ datoms, ∃ attrDef, schema[d.attr]? = some attrDef ∧
    valueMatchesType d.value attrDef.valueType

/-- Validation accepts the well-typed datoms and no others. -/
theorem validateDatoms_ok_iff (schema : Schema) (datoms : List Datom) :
    validateDatoms schema datoms = .ok () ↔ WellTyped schema datoms := by
  induction datoms with
  | nil => exact ⟨fun _ d hd => absurd hd List.not_mem_nil, fun _ => rfl⟩
  | cons d rest ih =>
      rw [WellTyped, List.forall_mem_cons, ← WellTyped, ← ih, validateDatoms]
      split
      case h_1 hnone =>
          constructor
          · intro h
            cases h
          · rintro ⟨⟨attrDef, hsome, -⟩, -⟩
            rw [hnone] at hsome
            cases hsome
      case h_2 attrDef hsome =>
          split
          case isTrue hmatches =>
              exact ⟨fun h => ⟨⟨attrDef, hsome, hmatches⟩, h⟩, fun h => h.2⟩
          case isFalse hmismatch =>
              constructor
              · intro h
                cases h
              · rintro ⟨⟨other, hother, hmatches⟩, -⟩
                rw [hsome] at hother
                cases hother
                exact absurd hmatches hmismatch

/-- A transaction is committed when it is well typed, and it is sealed as it is. -/
theorem Transaction.commit_ok_iff {transaction committed : Transaction} {schema : Schema} :
    transaction.commit schema = .ok committed ↔
      committed = transaction ∧ WellTyped schema transaction.datoms := by
  rw [← validateDatoms_ok_iff, Transaction.commit]
  cases hvalidate : validateDatoms schema transaction.datoms with
  | error e =>
      constructor
      · intro h
        cases h
      · rintro ⟨-, h⟩
        cases h
  | ok _ =>
      constructor
      · intro h
        cases h
        exact ⟨rfl, rfl⟩
      · rintro ⟨rfl, -⟩
        rfl

/-- The transactions that the builder makes. -/
inductive Transaction.Built : Transaction → Prop
  | new (node : NodeId) : Built (.new node)
  | assertDatom {transaction : Transaction} (entity : EntityId) (attr : Attribute)
      (value : Value) : Built transaction → Built (transaction.assertDatom entity attr value)
  | retractDatom {transaction : Transaction} (entity : EntityId) (attr : Attribute)
      (value : Value) : Built transaction → Built (transaction.retractDatom entity attr value)

/-- The datoms of a built transaction carry the placeholder. -/
theorem Transaction.Built.tx {transaction : Transaction} (h : transaction.Built) :
    ∀ d ∈ transaction.datoms, d.tx = placeholderTx := by
  induction h with
  | new node => exact fun d hd => absurd hd List.not_mem_nil
  | assertDatom entity attr value _ ih =>
      intro d hd
      rcases List.mem_append.mp hd with hold | hnew
      · exact ih d hold
      · rw [List.mem_singleton.mp hnew]
  | retractDatom entity attr value _ ih =>
      intro d hd
      rcases List.mem_append.mp hd with hold | hnew
      · exact ih d hold
      · rw [List.mem_singleton.mp hnew]

end Ferratomic
