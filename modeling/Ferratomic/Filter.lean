import Ferratomic.Datom

/-!
# Datom filters

The predicates a selective merge selects remote datoms with, and the text a merge receipt
describes them by.
-/

namespace Ferratomic

open Lib

/-- A predicate on datoms. -/
inductive DatomFilter where
  | all
  | attributeNamespace (prefixes : List String)
  | fromNodes (nodes : List NodeId)
  | entities (ids : List EntityId)
  | and (filters : List DatomFilter)
  | or (filters : List DatomFilter)

namespace DatomFilter

mutual

/-- `DatomFilter::matches` -/
def matchesDatom (d : Datom) : DatomFilter → Bool
  | all => true
  | attributeNamespace prefixes => prefixes.any fun p => p.toList.isPrefixOf d.attr.toList
  | fromNodes nodes => d.tx.node ∈ nodes
  | entities ids => d.entity ∈ ids
  | and filters => allMatch d filters
  | or filters => anyMatch d filters

/-- Every filter of a conjunction matches. -/
def allMatch (d : Datom) : List DatomFilter → Bool
  | [] => true
  | filter :: filters => matchesDatom d filter && allMatch d filters

/-- Some filter of a disjunction matches. -/
def anyMatch (d : Datom) : List DatomFilter → Bool
  | [] => false
  | filter :: filters => matchesDatom d filter || anyMatch d filters

end

/-- The two lower-case hexadecimal digits of a byte. -/
def byteToHex (byte : UInt8) : String :=
  let digit (n : Nat) : Char := if n < 10 then Char.ofNat (48 + n) else Char.ofNat (87 + n)
  String.ofList [digit (byte.toNat / 16), digit (byte.toNat % 16)]

/-- `bytes_to_hex` -/
def bytesToHex (bytes : Bytes) : String :=
  String.join (bytes.map byteToHex)

mutual

/-- `DatomFilter::serialize`: the description recorded in merge receipts. -/
def serialize : DatomFilter → String
  | all => "All"
  | attributeNamespace prefixes => "AttributeNamespace([" ++ ", ".intercalate prefixes ++ "])"
  | fromNodes nodes =>
      "FromNodes([" ++ ", ".intercalate (nodes.map fun n => bytesToHex n.val) ++ "])"
  | entities ids =>
      "Entities([" ++ ", ".intercalate (ids.map fun e => bytesToHex e.val) ++ "])"
  | and filters => "And([" ++ ", ".intercalate (serializeAll filters) ++ "])"
  | or filters => "Or([" ++ ", ".intercalate (serializeAll filters) ++ "])"

/-- The descriptions of a list of filters. -/
def serializeAll : List DatomFilter → List String
  | [] => []
  | filter :: filters => serialize filter :: serializeAll filters

end

end DatomFilter

end Ferratomic
