import Ferratomic.Db.Durability
import Ferratomic.Validate

/-!
# Clients that commit and apply

A client reads the schema of the published store, builds a transaction, commits it against the
schema it read and later calls `transact`, which applies it without validating it again. Any
number of clients do so in any interleaving. The main theorem, `applied_wellTyped_iff`, says that a
transaction is well typed in the store it is applied to exactly when none of its attributes has
another value type there than in the schema it was committed against;
`redefined_between_commit_and_apply` is an interleaving in which one has.
-/

namespace Ferratomic

open Lib

/-- A client: the schema it last read, and the transaction it has committed, with the schema that
this was validated against. -/
structure Client where
  schema : Option Schema
  committed : Option (Schema × Transaction)

/-- A client that has done nothing yet. -/
def Client.idle : Client :=
  ⟨none, none⟩

/-- A step of one of the clients. -/
inductive ClientStep (ι : Type) where
  | read (client : ι)
  | commit (client : ι) (transaction : Transaction)
  | apply (client : ι) (env : Env)

/-- The published schema gives every attribute of the datoms the value type that another schema
gives it. -/
def SameTypes (schema current : Schema) (datoms : List Datom) : Prop :=
  ∀ d ∈ datoms, current[d.attr]?.map AttributeDef.valueType =
    schema[d.attr]?.map AttributeDef.valueType

/-- Datoms that are well typed in one schema are so in another exactly when their attributes have
the same value types there, since a value has one type only. -/
theorem wellTyped_iff_sameTypes {schema : Schema} {datoms : List Datom}
    (h : WellTyped schema datoms) (current : Schema) :
    WellTyped current datoms ↔ SameTypes schema current datoms := by
  refine forall₂_congr fun d hd => ?_
  obtain ⟨attrDef, hdef, hmatches⟩ := h d hd
  rw [hdef, Option.map_some, Option.map_eq_some_iff, valueMatchesType_iff.mp hmatches]
  constructor
  · rintro ⟨other, hother, hsame⟩
    exact ⟨other, hother, valueMatchesType_iff.mp hsame⟩
  · rintro ⟨other, hother, hsame⟩
    exact ⟨other, hother, valueMatchesType_iff.mpr hsame⟩

/-- A database with its clients. -/
structure Clients [Blake3] (ι : Type) where
  db : Database
  clients : ι → Client

namespace Clients

variable [Blake3] {ι : Type}

/-- The clients of a database before their first step. -/
def start (db : Database) : Clients ι :=
  ⟨db, fun _ => .idle⟩

variable [DecidableEq ι]

/-- Replace the state of one client. -/
def update (state : Clients ι) (client : ι) (new : Client) : Clients ι :=
  { state with clients := Function.update state.clients client new }

variable [Bincode]

/-- One step. A commit without a schema and an application without a committed transaction do
nothing; a failed commit is reported to the client only; a transaction is applied once. -/
def step (state : Clients ι) : ClientStep ι → Clients ι
  | .read client =>
      state.update client
        { state.clients client with schema := some state.db.current.schema }
  | .commit client transaction =>
      match (state.clients client).schema with
      | none => state
      | some schema =>
          match transaction.commit schema with
          | .error _ => state
          | .ok committed =>
              state.update client
                { state.clients client with committed := some (schema, committed) }
  | .apply client env =>
      match (state.clients client).committed with
      | none => state
      | some (_, transaction) =>
          { state.update client { state.clients client with committed := none } with
            db := (state.db.transact env transaction).2 }

/-- A sequence of steps. -/
def run (state : Clients ι) (steps : List (ClientStep ι)) : Clients ι :=
  steps.foldl step state

/-- Every committed transaction is well typed in the schema it was committed against. -/
def Validated (state : Clients ι) : Prop :=
  ∀ client schema transaction, (state.clients client).committed = some (schema, transaction) →
    WellTyped schema transaction.datoms

omit [Bincode] in
/-- A client whose transaction is validated keeps the clients validated. -/
theorem Validated.update {state : Clients ι} (h : state.Validated) {client : ι} {new : Client}
    (hnew : ∀ schema transaction, new.committed = some (schema, transaction) →
      WellTyped schema transaction.datoms) : (state.update client new).Validated := by
  intro other schema transaction hcommitted
  simp only [Clients.update] at hcommitted
  by_cases hsame : other = client
  · rw [hsame, Function.update_self] at hcommitted
    exact hnew schema transaction hcommitted
  · rw [Function.update_of_ne hsame] at hcommitted
    exact h other schema transaction hcommitted

/-- A step keeps the invariant. -/
theorem Validated.step {state : Clients ι} (h : state.Validated) (next : ClientStep ι) :
    (state.step next).Validated := by
  cases next with
  | read client => exact h.update (h client)
  | commit client transaction =>
      simp only [Clients.step]
      split
      case h_1 => exact h
      case h_2 schema _ =>
          split
          case h_1 => exact h
          case h_2 committed hcommit =>
              obtain ⟨rfl, hwell⟩ := Transaction.commit_ok_iff.mp hcommit
              refine h.update fun schema' transaction' hnew => ?_
              cases hnew
              exact hwell
  | apply client env =>
      simp only [Clients.step]
      split
      case h_1 => exact h
      case h_2 => exact h.update fun schema transaction hnew => nomatch hnew

/-- Every run keeps the clients validated. -/
theorem Validated.run {state : Clients ι} (h : state.Validated) (steps : List (ClientStep ι)) :
    (state.run steps).Validated := by
  induction steps generalizing state with
  | nil => exact h
  | cons next rest ih => exact ih (h.step next)

/-- After any interleaving of the clients' steps, the transaction that a client is about to apply
is well typed in the published schema exactly when no attribute of its datoms has another value
type there than in the schema it was committed against. -/
theorem applied_wellTyped_iff (db : Database) (steps : List (ClientStep ι)) {client : ι}
    {schema : Schema} {transaction : Transaction}
    (happly : (((start db).run steps).clients client).committed = some (schema, transaction)) :
    WellTyped ((start db).run steps).db.current.schema transaction.datoms ↔
      SameTypes schema ((start db).run steps).db.current.schema transaction.datoms := by
  have hstart : (start db : Clients ι).Validated := fun _ _ _ h => nomatch h
  exact wellTyped_iff_sameTypes (hstart.run steps client schema transaction happly) _

end Clients

namespace Sample

/-- One client reads the schema and commits a documentation text. -/
def commitDocument : List (ClientStep Bool) :=
  [.read true, .commit true document]

/-- The definition of `db/doc` as a reference. -/
def retypeDoc : Transaction :=
  (((Transaction.new NodeId.zero).assertDatom (EntityId.fromContent [2]) "db/ident"
      (.keyword "db/doc")).assertDatom (EntityId.fromContent [2]) "db/valueType"
      (.keyword "db.type/ref")).assertDatom (EntityId.fromContent [2]) "db/cardinality"
    (.keyword "db.cardinality/one")

/-- Before the client applies its transaction, another client redefines the attribute. -/
def redefineBetween : List (ClientStep Bool) :=
  commitDocument ++
    [.read false, .commit false retypeDoc, .apply false (envAt 1 .complete (.ok ()))]

end Sample

open Sample

namespace Clients

/-- The committed text is well typed as long as no one redefines its attribute. -/
theorem applied_wellTyped_iff_commitDocument :
    (((start Database.genesis).run commitDocument).clients true).committed.isSome ∧
      ∀ schema transaction,
        (((start Database.genesis).run commitDocument).clients true).committed =
          some (schema, transaction) →
        (WellTyped ((start Database.genesis).run commitDocument).db.current.schema
            transaction.datoms ↔
          SameTypes schema ((start Database.genesis).run commitDocument).db.current.schema
            transaction.datoms) := by
  refine ⟨by decide +kernel, fun schema transaction h => ?_⟩
  exact applied_wellTyped_iff Database.genesis commitDocument h

/-- A transaction that was committed is applied although another client has redefined its
attribute: the text of `db/doc` is applied to a store in which `db/doc` is a reference. -/
theorem redefined_between_commit_and_apply :
    (((start Database.genesis).run redefineBetween).clients true).committed.map
        (fun committed => committed.2.datoms) = some document.datoms ∧
      (((start Database.genesis).run redefineBetween).db.transact (envAt 2 .complete (.ok ()))
        document).1.toOption.map List.length = some 1 ∧
      ¬WellTyped ((start Database.genesis).run redefineBetween).db.current.schema
        document.datoms := by
  have hfacts : (((start Database.genesis).run redefineBetween).clients true).committed.map
        (fun committed => committed.2.datoms) = some document.datoms ∧
      (((start Database.genesis).run redefineBetween).db.transact (envAt 2 .complete (.ok ()))
        document).1.toOption.map List.length = some 1 ∧
      (validateDatoms ((start Database.genesis).run redefineBetween).db.current.schema
        document.datoms).isOk = false := by
    decide +kernel
  obtain ⟨hcommitted, happlied, hrejected⟩ := hfacts
  refine ⟨hcommitted, happlied, fun hwell => ?_⟩
  rw [(validateDatoms_ok_iff _ _).mpr hwell] at hrejected
  cases hrejected

end Clients

end Ferratomic
