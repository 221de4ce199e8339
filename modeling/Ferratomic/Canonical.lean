import Ferratomic.Bincode

/-!
# The canonical layout is self-delimiting

Values and attribute names carry a tag or a length in front of their bytes, so in a stream of
canonically encoded datoms the end of each datom can be read off. The lengths are two or four
bytes wide and saturate, so this holds of names and payloads that fit. The main theorem is
`selfDelimiting_signingBytes`: the fields of a datom that are signed can be cut off the front of
a stream.
-/

namespace Ferratomic

open Lib

section Utf8

/-- The conversion loop appends the rest of the array to what it has read. -/
theorem toList_loop (bytes : ByteArray) (i : Nat) (read : List UInt8) :
    ByteArray.toList.loop bytes i read = read.reverse ++ bytes.data.toList.drop i := by
  fun_induction ByteArray.toList.loop bytes i read with
  | case1 i read hlt ih =>
      have hsize : i < bytes.data.size := hlt
      have hlength : i < bytes.data.toList.length := by
        rw [Array.length_toList]
        exact hsize
      have hget : bytes.get! i = bytes.data.toList[i] := by
        show bytes.data[i]! = bytes.data.toList[i]
        rw [getElem!_pos bytes.data i hsize, Array.getElem_toList]
      rw [ih, List.reverse_cons, List.append_assoc, List.singleton_append, hget,
        List.drop_eq_getElem_cons hlength]
  | case2 i read hge =>
      have hlength : bytes.data.toList.length ≤ i := by
        rw [Array.length_toList]
        exact Nat.le_of_not_lt hge
      rw [List.drop_eq_nil_of_le hlength, List.append_nil]

/-- The bytes of a text are those of its array. -/
theorem utf8Bytes_eq (s : String) : utf8Bytes s = s.toByteArray.data.toList := by
  rw [utf8Bytes, ByteArray.toList, toList_loop]
  rfl

/-- The bytes of a string are those of its characters in a row. -/
theorem utf8Bytes_eq_flatMap (s : String) :
    utf8Bytes s = s.toList.flatMap String.utf8EncodeChar := by
  rw [utf8Bytes_eq, ← s.ofList_toList, String.toByteArray_ofList, List.utf8Encode,
    List.toList_data_toByteArray, String.toList_ofList]

/-- Texts of the same bytes are equal. -/
theorem utf8Bytes_injective : Function.Injective utf8Bytes := by
  intro s t h
  rw [utf8Bytes_eq, utf8Bytes_eq, Array.toList_inj] at h
  exact String.toByteArray_inj.mp (ByteArray.ext h)

end Utf8

/-- The payload fits the length in front of it. -/
def Value.Encodable : Value → Prop
  | keyword text => (utf8Bytes text).length ≤ 65535
  | string text => (utf8Bytes text).length ≤ 2 ^ 32 - 1
  | bytes blob => blob.length ≤ 2 ^ 32 - 1
  | _ => True

/-- The bytes of an attribute delimit themselves. -/
theorem selfDelimiting_canonicalAttrBytes :
    SelfDelimiting canonicalAttrBytes fun attr => (utf8Bytes attr).length ≤ maxAttributeBytes := by
  intro a b ha hb rest rest' h
  obtain ⟨hbytes, hrest⟩ := @selfDelimiting_counted 2 65535 (by decide)
    (utf8Bytes a) (utf8Bytes b) ha hb rest rest' h
  exact ⟨utf8Bytes_injective hbytes, hrest⟩

/-- The number of the variant, which is the tag in front of its bytes. -/
def Value.variant : Value → Nat
  | keyword _ => 1
  | string _ => 2
  | long _ => 3
  | double _ => 4
  | bool _ => 5
  | instant _ => 6
  | uuid _ => 7
  | bytes _ => 8
  | ref _ => 9
  | bigInt _ => 10
  | bigDec _ => 11

/-- The canonical bytes of a value start with its tag. -/
theorem Value.head?_canonicalBytes (value : Value) (rest : Bytes) :
    (value.canonicalBytes ++ rest).head? = some (UInt8.ofNat value.variant) := by
  cases value <;> rfl

/-- Every tag is a byte. -/
theorem Value.variant_lt (value : Value) : value.variant < 256 := by
  unfold Value.variant
  split <;> omega

/-- The tag decides the variant, and the payload has a fixed width or is counted. -/
theorem selfDelimiting_canonicalValueBytes :
    SelfDelimiting Value.canonicalBytes Value.Encodable := by
  intro a b ha hb rest rest' h
  -- the first byte tells the variants apart, so that only the diagonal cases are left
  have htag : a.variant = b.variant := by
    have hhead := congrArg List.head? h
    rw [a.head?_canonicalBytes, b.head?_canonicalBytes, Option.some.injEq] at hhead
    have hnat := congrArg UInt8.toNat hhead
    rw [UInt8.toNat_ofNat', UInt8.toNat_ofNat', Nat.mod_eq_of_lt a.variant_lt,
      Nat.mod_eq_of_lt b.variant_lt] at hnat
    exact hnat
  cases a with
  | keyword text =>
      cases b with
      | keyword text' =>
          obtain ⟨hdata, hrest⟩ := @selfDelimiting_counted 2 (65535) (by decide)
            (utf8Bytes text) (utf8Bytes text') ha hb rest rest' (List.cons.inj h).2
          rw [utf8Bytes_injective hdata]
          exact ⟨rfl, hrest⟩
      | _ => cases htag
  | string text =>
      cases b with
      | string text' =>
          obtain ⟨hdata, hrest⟩ := @selfDelimiting_counted 4 (2 ^ 32 - 1) (by decide)
            (utf8Bytes text) (utf8Bytes text') ha hb rest rest' (List.cons.inj h).2
          rw [utf8Bytes_injective hdata]
          exact ⟨rfl, hrest⟩
      | _ => cases htag
  | long number =>
      cases b with
      | long number' =>
          obtain ⟨rfl, hrest⟩ := (Bincode.signed 8 (by decide)).selfDelimiting
            _ _ trivial trivial rest rest' (List.cons.inj h).2
          exact ⟨rfl, hrest⟩
      | _ => cases htag
  | double number =>
      cases b with
      | double number' =>
          obtain ⟨rfl, hrest⟩ := Bincode.double.selfDelimiting
            _ _ trivial trivial rest rest' (List.cons.inj h).2
          exact ⟨rfl, hrest⟩
      | _ => cases htag
  | bool flag =>
      cases b with
      | bool flag' =>
          obtain ⟨rfl, hrest⟩ := Codec.bool.selfDelimiting
            _ _ trivial trivial rest rest' (List.cons.inj h).2
          exact ⟨rfl, hrest⟩
      | _ => cases htag
  | instant millis =>
      cases b with
      | instant millis' =>
          obtain ⟨rfl, hrest⟩ := (Bincode.signed 8 (by decide)).selfDelimiting
            _ _ trivial trivial rest rest' (List.cons.inj h).2
          exact ⟨rfl, hrest⟩
      | _ => cases htag
  | uuid id =>
      cases b with
      | uuid id' =>
          obtain ⟨rfl, hrest⟩ := (Codec.bytes 16).selfDelimiting
            _ _ trivial trivial rest rest' (List.cons.inj h).2
          exact ⟨rfl, hrest⟩
      | _ => cases htag
  | bytes blob =>
      cases b with
      | bytes blob' =>
          obtain ⟨rfl, hrest⟩ := @selfDelimiting_counted 4 (2 ^ 32 - 1) (by decide)
            blob blob' ha hb rest rest' (List.cons.inj h).2
          exact ⟨rfl, hrest⟩
      | _ => cases htag
  | ref entity =>
      cases b with
      | ref entity' =>
          obtain ⟨rfl, hrest⟩ := (Codec.bytes 32).selfDelimiting
            _ _ trivial trivial rest rest' (List.cons.inj h).2
          exact ⟨rfl, hrest⟩
      | _ => cases htag
  | bigInt number =>
      cases b with
      | bigInt number' =>
          obtain ⟨rfl, hrest⟩ := (Bincode.signed 16 (by decide)).selfDelimiting
            _ _ trivial trivial rest rest' (List.cons.inj h).2
          exact ⟨rfl, hrest⟩
      | _ => cases htag
  | bigDec number =>
      cases b with
      | bigDec number' =>
          obtain ⟨rfl, hrest⟩ := (Bincode.signed 16 (by decide)).selfDelimiting
            _ _ trivial trivial rest rest' (List.cons.inj h).2
          exact ⟨rfl, hrest⟩
      | _ => cases htag

/-- The fields of a datom that are signed: all but its timestamp. -/
abbrev SignedFields := EntityId × Attribute × Value × Op

/-- The signed fields of a datom. -/
def Datom.signed (d : Datom) : SignedFields :=
  (d.entity, d.attr, d.value, d.op)

/-- The bytes of the signed fields. -/
def signingBytes (fields : SignedFields) : Bytes :=
  fields.1.val ++ canonicalAttrBytes fields.2.1 ++ fields.2.2.1.canonicalBytes ++
    [fields.2.2.2.canonicalByte]

/-- The name and the payload fit the lengths in front of them. -/
def SignedFields.Encodable (fields : SignedFields) : Prop :=
  (utf8Bytes fields.2.1).length ≤ maxAttributeBytes ∧ fields.2.2.1.Encodable

/-- Operations of the same byte are equal. -/
theorem Op.canonicalByte_injective : Function.Injective Op.canonicalByte := by
  intro a b h
  cases a <;> cases b <;> first | rfl | exact absurd h (by decide)

/-- The signed fields of a datom can be cut off the front of a stream. -/
theorem selfDelimiting_signingBytes :
    SelfDelimiting signingBytes SignedFields.Encodable := by
  rintro ⟨entity, attr, value, op⟩ ⟨entity', attr', value', op'⟩ ⟨hattr, hvalue⟩ ⟨hattr', hvalue'⟩
    rest rest' h
  simp only [signingBytes, List.append_assoc] at h
  obtain ⟨rfl, hfields⟩ := (Codec.bytes 32).selfDelimiting entity entity' trivial trivial _ _ h
  obtain ⟨rfl, hpayload⟩ :=
    selfDelimiting_canonicalAttrBytes attr attr' hattr hattr' _ _ hfields
  obtain ⟨rfl, hlast⟩ :=
    selfDelimiting_canonicalValueBytes value value' hvalue hvalue' _ _ hpayload
  obtain ⟨hop, hrest⟩ := List.cons.inj hlast
  rw [Op.canonicalByte_injective hop]
  exact ⟨rfl, hrest⟩

end Ferratomic
