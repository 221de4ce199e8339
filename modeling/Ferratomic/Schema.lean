import Ferratomic.Lib.OrdMap
import Ferratomic.Datom
import Ferratomic.Error

/-!
# Schemas and schema evolution

A schema maps attribute names to definitions. Transactions evolve it: an entity that carries
`db/ident`, `db/valueType` and `db/cardinality` keywords installs an attribute, the last
definition winning. The source groups the datoms in a hash map and visits the groups in its
iteration order, which is a parameter here (`IterOrder`).
-/

namespace Ferratomic

open Lib

/-- The type of values an attribute accepts, in declaration order. -/
inductive ValueType where
  | keyword
  | string
  | long
  | double
  | boolean
  | instant
  | uuid
  | bytes
  | ref
  | bigInt
  | bigDec
  deriving Repr

/-- The variant's position in its declaration. -/
def ValueType.rank : ValueType → Nat
  | .keyword => 0
  | .string => 1
  | .long => 2
  | .double => 3
  | .boolean => 4
  | .instant => 5
  | .uuid => 6
  | .bytes => 7
  | .ref => 8
  | .bigInt => 9
  | .bigDec => 10

/-- The derived `Debug` text, which schema violations quote. -/
def ValueType.debug : ValueType → String
  | .keyword => "Keyword"
  | .string => "String"
  | .long => "Long"
  | .double => "Double"
  | .boolean => "Boolean"
  | .instant => "Instant"
  | .uuid => "Uuid"
  | .bytes => "Bytes"
  | .ref => "Ref"
  | .bigInt => "BigInt"
  | .bigDec => "BigDec"

instance : LinearOrder ValueType :=
  LinearOrder.lift' ValueType.rank fun a b h => by
    cases a <;> cases b <;> first | rfl | exact absurd h (by decide)

/-- At most one value for an entity and attribute, or many. -/
inductive Cardinality where
  | one
  | many
  deriving Repr

/-- The variant's position in its declaration. -/
def Cardinality.rank : Cardinality → Nat
  | .one => 0
  | .many => 1

/-- The derived `Debug` text, which schema violations quote. -/
def Cardinality.debug : Cardinality → String
  | .one => "One"
  | .many => "Many"

instance : LinearOrder Cardinality :=
  LinearOrder.lift' Cardinality.rank fun a b h => by
    cases a <;> cases b <;> first | rfl | exact absurd h (by decide)

/-- The resolution mode of conflicting values. -/
inductive ResolutionMode where
  | lww
  | multiValue
  deriving Repr

/-- The variant's position in its declaration. -/
def ResolutionMode.rank : ResolutionMode → Nat
  | .lww => 0
  | .multiValue => 1

instance : LinearOrder ResolutionMode :=
  LinearOrder.lift' ResolutionMode.rank fun a b h => by
    cases a <;> cases b <;> first | rfl | exact absurd h (by decide)

/-- The definition of one attribute. -/
@[ext]
structure AttributeDef where
  valueType : ValueType
  cardinality : Cardinality
  resolutionMode : ResolutionMode
  doc : Option String
  deriving Repr

/-- The fields in comparison order; an absent documentation text sorts first. -/
def AttributeDef.sortKey (d : AttributeDef) :
    ValueType ×ₗ Cardinality ×ₗ ResolutionMode ×ₗ WithBot String :=
  toLex (d.valueType, toLex (d.cardinality, toLex (d.resolutionMode, d.doc)))

/-- Definitions of the same sort key are equal. -/
theorem AttributeDef.sortKey_injective : Function.Injective AttributeDef.sortKey := by
  intro a b h
  cases a
  cases b
  simp only [AttributeDef.sortKey, EmbeddingLike.apply_eq_iff_eq, Prod.mk.injEq] at h
  obtain ⟨rfl, rfl, h⟩ := h
  cases h
  rfl

/-- The derived order of definitions. -/
instance : LinearOrder AttributeDef :=
  LinearOrder.lift' AttributeDef.sortKey AttributeDef.sortKey_injective

/-- The schema: definitions by attribute name. -/
abbrev Schema := OrdMap Attribute AttributeDef

namespace Schema

/-- `Schema::define`: install a definition. A differing earlier definition is replaced. -/
def define (schema : Schema) (attr : Attribute) (d : AttributeDef) : Schema :=
  match schema[attr]? with
  | some existing => if existing = d then schema else schema.insert attr d
  | none => schema.insert attr d

/-- The definitions folded in from a list of names, as checkpoint loading does. -/
def ofPairs (pairs : List (Attribute × AttributeDef)) : Schema :=
  pairs.foldl (fun schema pair => schema.define pair.1 pair.2) ∅

/-- The definition installed last is the one found. -/
theorem getElem?_define (schema : Schema) (attr probe : Attribute) (d : AttributeDef) :
    (schema.define attr d)[probe]? = if attr = probe then some d else schema[probe]? := by
  unfold define
  split
  case h_1 existing h =>
      split
      case isTrue heq =>
          by_cases hprobe : attr = probe
          · rw [if_pos hprobe, ← hprobe, h, heq]
          · rw [if_neg hprobe]
      case isFalse => rw [OrdMap.getElem?_insert_eq]
  case h_2 h => rw [OrdMap.getElem?_insert_eq]

/-- Looking up an attribute in folded definitions with distinct names. -/
theorem getElem?_foldl_define (pairs : List (Attribute × AttributeDef)) (schema : Schema)
    (hdistinct : pairs.Pairwise (·.1 ≠ ·.1)) (probe : Attribute) :
    (pairs.foldl (fun schema pair => schema.define pair.1 pair.2) schema)[probe]? =
      (((pairs.find? (·.1 = probe)).map Prod.snd).or schema[probe]?) := by
  induction pairs generalizing schema with
  | nil => simp
  | cons pair pairs ih =>
      obtain ⟨hhead, htail⟩ := List.pairwise_cons.mp hdistinct
      rw [List.foldl_cons, ih _ htail, getElem?_define]
      by_cases hprobe : pair.1 = probe
      · have hnone : pairs.find? (·.1 = probe) = none := by
          rw [List.find?_eq_none]
          intro other hother
          rw [decide_eq_true_eq, ← hprobe]
          exact (hhead other hother).symm
        simp [hprobe, hnone]
      · simp [hprobe]

/-- The definitions of a schema fold back to the schema. -/
theorem ofPairs_toList (schema : Schema) : ofPairs schema.toList = schema := by
  refine OrdMap.ext fun probe => ?_
  have hdistinct : schema.toList.Pairwise (·.1 ≠ ·.1) :=
    (OrdMap.pairwise_keys_toList schema).imp fun h => ne_of_lt h
  rw [ofPairs, getElem?_foldl_define _ _ hdistinct, OrdMap.find?_toList]
  simp

end Schema

end Ferratomic
