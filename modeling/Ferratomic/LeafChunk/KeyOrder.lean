import Ferratomic.LeafChunk.Accepted
import Ferratomic.Lib.ByteOrder

/-!
# The order of the keys

`datom_set_to_pair_chunk` writes the entries in the order of the datoms, and the assertion of
`from_sorted_unchecked` wants them in the order of their keys. Numbers and lengths are written with
the least significant byte first, so the two orders disagree. The main theorem,
`datomSetToPairChunk_ascends_iff`, says for which sets they agree, by the first field in which two
datoms differ.
-/

namespace Ferratomic

open Lib

section Fields

/-- The bits of a two's complement, as a number. -/
def unsignedBits {width : Nat} (value : SignedInt width) : Nat :=
  (value.val % 2 ^ width).toNat

/-- Two different values of one variant, the lesser one first, have their bytes in this order. -/
def Value.KeyOrdered : Value → Value → Prop
  | keyword a, keyword b =>
      swapBytes 2 (utf8Bytes a).length ≤ swapBytes 2 (utf8Bytes b).length
  | string a, string b => swapBytes 4 (utf8Bytes a).length ≤ swapBytes 4 (utf8Bytes b).length
  | long a, long b => swapBytes 8 (unsignedBits a) < swapBytes 8 (unsignedBits b)
  | double a, double b => swapBytes 8 a.toBits < swapBytes 8 b.toBits
  | instant a, instant b => swapBytes 8 (unsignedBits a) < swapBytes 8 (unsignedBits b)
  | bytes a, bytes b => swapBytes 4 a.length ≤ swapBytes 4 b.length
  | bigInt a, bigInt b => swapBytes 16 (unsignedBits a) < swapBytes 16 (unsignedBits b)
  | bigDec a, bigDec b => swapBytes 16 (unsignedBits a) < swapBytes 16 (unsignedBits b)
  | _, _ => True

/-- Two different timestamps, the lesser one first, have their bytes in this order. -/
def TxId.KeyOrdered (a b : TxId) : Prop :=
  if a.physical = b.physical then
    if a.logical = b.logical then True
    else swapBytes 4 a.logical.toNat < swapBytes 4 b.logical.toNat
  else swapBytes 8 a.physical.toNat < swapBytes 8 b.physical.toNat

/-- Two datoms, the lesser one first, have their keys in this order: the first field in which they
differ has. -/
def Datom.KeyOrdered (a b : Datom) : Prop :=
  if a.entity = b.entity then
    if a.attr = b.attr then
      if a.value = b.value then
        if a.tx = b.tx then True
        else a.tx.KeyOrdered b.tx
      else a.value.KeyOrdered b.value
    else swapBytes 2 (utf8Bytes a.attr).length ≤ swapBytes 2 (utf8Bytes b.attr).length
  else True

/-- The order of texts is the order of their bytes. -/
theorem utf8Bytes_lt {s t : String} (h : s < t) : utf8Bytes s < utf8Bytes t := by
  rw [utf8Bytes_eq_flatMap, utf8Bytes_eq_flatMap]
  exact flatMap_utf8EncodeChar_lt (String.lt_iff_toList_lt.mp h)

/-- Signed numbers compare in bytes as their unsigned bits compare with the bytes swapped. -/
theorem compares_signed {width : Nat} (h : 0 < width) :
    Compares (fun value : SignedInt (8 * width) => value.leBytes) (fun _ => True)
      fun a b => swapBytes width (unsignedBits a) < swapBytes width (unsignedBits b) := by
  have hpow : 256 ^ width = 2 ^ (8 * width) := by rw [show 256 = 2 ^ 8 from rfl, ← pow_mul]
  have hbound (a : SignedInt (8 * width)) : unsignedBits a < 256 ^ width :=
    hpow ▸ Bincode.twosComplement_lt a
  have hinj : Function.Injective (@unsignedBits (8 * width)) := by
    intro a b hab
    have ha := Bincode.ofTwosComplement_emod (by omega) a
    have hb := Bincode.ofTwosComplement_emod (by omega) b
    rw [show (a.val % 2 ^ (8 * width)).toNat = (b.val % 2 ^ (8 * width)).toNat from hab, hb] at ha
    exact (Option.some.inj ha).symm
  refine (compares_number hbound hinj).comap id (fun _ _ hlt => hlt) fun value => ?_
  rw [SignedInt.leBytes, Nat.mul_div_cancel_left width (by decide)]
  rfl

/-- Attributes compare in bytes by their swapped length first. -/
theorem compares_canonicalAttrBytes :
    Compares canonicalAttrBytes (fun attr => (utf8Bytes attr).length ≤ maxAttributeBytes)
      fun a b => swapBytes 2 (utf8Bytes a).length ≤ swapBytes 2 (utf8Bytes b).length :=
  @compares_counted _ _ 2 65535 rfl utf8Bytes fun _ _ => utf8Bytes_lt

/-- Floats compare in bytes as their bits compare with the bytes swapped. -/
theorem compares_double :
    Compares (fun number : NonNanFloat => leBytes 8 number.toBits) (fun _ => True)
      fun a b => swapBytes 8 a.toBits < swapBytes 8 b.toBits := by
  refine compares_number (fun number => ?_) fun a b hab => Subtype.ext ?_
  · have hrange := number.property
    rw [NonNanFloat.toBits]
    split <;> omega
  · have ha := a.property
    have hb := b.property
    rw [NonNanFloat.toBits, NonNanFloat.toBits] at hab
    split at hab <;> split at hab <;> omega

/-- Flags compare in bytes as they compare. -/
theorem compares_bool : Compares (fun flag : Bool => [if flag then (1 : UInt8) else 0])
    (fun _ => True) fun _ _ => True := by
  intro a b _ _ hlt rest rest'
  obtain ⟨rfl, rfl⟩ := Bool.lt_iff.mp hlt
  exact iff_of_true (.rel (by decide)) trivial

/-- Identifiers compare in bytes when they are in key order. -/
theorem compares_tx : Compares TxId.canonicalBytes (fun _ => True) TxId.KeyOrdered := by
  have hphysical := @compares_number UInt64 _ 8 UInt64.toNat UInt64.toNat_lt
    fun a b => UInt64.toNat_inj.mp
  have hlogical := @compares_number UInt32 _ 4 UInt32.toNat UInt32.toNat_lt
    fun a b => UInt32.toNat_inj.mp
  have hfields := hphysical.pair (hlogical.pair (compares_fixed 16))
  have htx := @Compares.comap _ _ _ _ _ TxId.canonicalBytes _ _ hfields TxId.sortKey
    (fun _ _ hlt => hlt) fun tx => List.append_assoc _ _ _
  exact fun a b _ _ => htx a b ⟨trivial, trivial, trivial⟩ ⟨trivial, trivial, trivial⟩

/-- Operations compare in bytes as they compare. -/
theorem compares_op :
    Compares (fun op : Op => [op.canonicalByte]) (fun _ => True) fun _ _ => True := by
  intro a b _ _ hlt rest rest'
  cases a with
  | assert =>
      cases b with
      | assert => exact absurd hlt (lt_irrefl _)
      | retract => exact iff_of_true (.rel (by decide)) trivial
  | retract => cases b <;> exact absurd hlt (by decide)

end Fields

section Values

/-- The variants are ordered by their number. -/
theorem Value.variant_le_of_lt {a b : Value} (h : a < b) : a.variant ≤ b.variant := by
  have hlt : a.toVariants < b.toVariants := h
  cases a <;> cases b <;>
    simp [Value.variant, Value.toVariants, Sum.inlₗ, Sum.inrₗ] at hlt ⊢

/-- Values of two variants are in key order. -/
theorem Value.keyOrdered_of_variant_ne {a b : Value} (h : a.variant ≠ b.variant) :
    a.KeyOrdered b := by
  cases a <;> cases b <;> trivial

/-- Values of different variants compare by their tags. -/
theorem Value.canonicalBytes_lt_of_variant_ne {a b : Value} (h : a < b)
    (hne : a.variant ≠ b.variant) (rest rest' : Bytes) :
    a.canonicalBytes ++ rest < b.canonicalBytes ++ rest' ↔ a.KeyOrdered b := by
  refine iff_of_true ?_ (keyOrdered_of_variant_ne hne)
  obtain ⟨tail, htail⟩ := List.head?_eq_some_iff.mp (a.head?_canonicalBytes rest)
  obtain ⟨tail', htail'⟩ := List.head?_eq_some_iff.mp (b.head?_canonicalBytes rest')
  have hlt : a.variant < b.variant := lt_of_le_of_ne (variant_le_of_lt h) hne
  have hbyte (value : Value) : (UInt8.ofNat value.variant).toNat = value.variant :=
    UInt8.toNat_ofNat_of_lt' value.variant_lt
  rw [htail, htail']
  refine .rel ?_
  rw [UInt8.lt_iff_toNat_lt, hbyte, hbyte]
  exact hlt

/-- Values of one variant compare like their payloads. -/
theorem compares_variant {α : Type} [Preorder α] {payload : α → Bytes} {fits : α → Prop}
    {R : α → α → Prop} (h : Compares payload fits R) {make : α → Value} (tag : UInt8)
    (hbytes : ∀ a, (make a).canonicalBytes = tag :: payload a)
    (hmake : ∀ a b, (make a).toVariants < (make b).toVariants → a < b) {a b : α} (ha : fits a)
    (hb : fits b) (hlt : make a < make b) (rest rest' : Bytes) :
    (make a).canonicalBytes ++ rest < (make b).canonicalBytes ++ rest' ↔ R a b := by
  rw [hbytes, hbytes, List.cons_append, List.cons_append, List.cons_lt_cons_self]
  exact h a b ha hb (hmake a b hlt) rest rest'

/-- Values compare in bytes when they are in key order. -/
theorem compares_value : Compares Value.canonicalBytes Value.Encodable Value.KeyOrdered := by
  intro a b ha hb hlt rest rest'
  -- the tags are in the order of the variants; within one variant the payloads decide
  by_cases hvariant : a.variant = b.variant
  case neg => exact Value.canonicalBytes_lt_of_variant_ne hlt hvariant rest rest'
  have hcounted := @compares_counted _ _ 4 (2 ^ 32 - 1) rfl utf8Bytes fun _ _ => utf8Bytes_lt
  have hblob := @compares_counted _ _ 4 (2 ^ 32 - 1) rfl (id : Bytes → Bytes) fun _ _ hlt => hlt
  cases a with
  | keyword text =>
      cases b with
      | keyword text' =>
          exact compares_variant compares_canonicalAttrBytes 0x01 (fun _ => rfl)
            (fun _ _ => by simp [Value.toVariants, Sum.inlₗ]) ha hb hlt rest rest'
      | _ => cases hvariant
  | string text =>
      cases b with
      | string text' =>
          exact compares_variant hcounted 0x02 (fun _ => rfl)
            (fun _ _ => by simp [Value.toVariants, Sum.inlₗ, Sum.inrₗ]) ha hb hlt rest rest'
      | _ => cases hvariant
  | long number =>
      cases b with
      | long number' =>
          exact compares_variant (@compares_signed 8 (by decide)) 0x03 (fun _ => rfl)
            (fun _ _ => by simp [Value.toVariants, Sum.inlₗ, Sum.inrₗ]) trivial trivial hlt
            rest rest'
      | _ => cases hvariant
  | double number =>
      cases b with
      | double number' =>
          exact compares_variant compares_double 0x04 (fun _ => rfl)
            (fun _ _ => by simp [Value.toVariants, Sum.inlₗ, Sum.inrₗ]) trivial trivial hlt
            rest rest'
      | _ => cases hvariant
  | bool flag =>
      cases b with
      | bool flag' =>
          exact compares_variant compares_bool 0x05 (fun _ => rfl)
            (fun _ _ => by simp [Value.toVariants, Sum.inlₗ, Sum.inrₗ]) trivial trivial hlt
            rest rest'
      | _ => cases hvariant
  | instant millis =>
      cases b with
      | instant millis' =>
          exact compares_variant (@compares_signed 8 (by decide)) 0x06 (fun _ => rfl)
            (fun _ _ => by simp [Value.toVariants, Sum.inlₗ, Sum.inrₗ]) trivial trivial hlt
            rest rest'
      | _ => cases hvariant
  | uuid id =>
      cases b with
      | uuid id' =>
          exact compares_variant (compares_fixed 16) 0x07 (fun _ => rfl)
            (fun _ _ => by simp [Value.toVariants, Sum.inlₗ, Sum.inrₗ]) trivial trivial hlt
            rest rest'
      | _ => cases hvariant
  | bytes blob =>
      cases b with
      | bytes blob' =>
          exact compares_variant hblob 0x08 (fun _ => rfl)
            (fun _ _ => by simp [Value.toVariants, Sum.inlₗ, Sum.inrₗ]) ha hb hlt rest rest'
      | _ => cases hvariant
  | ref entity =>
      cases b with
      | ref entity' =>
          exact compares_variant (compares_fixed 32) 0x09 (fun _ => rfl)
            (fun _ _ => by simp [Value.toVariants, Sum.inlₗ, Sum.inrₗ]) trivial trivial hlt
            rest rest'
      | _ => cases hvariant
  | bigInt number =>
      cases b with
      | bigInt number' =>
          exact compares_variant (@compares_signed 16 (by decide)) 0x0A (fun _ => rfl)
            (fun _ _ => by simp [Value.toVariants, Sum.inlₗ, Sum.inrₗ]) trivial trivial hlt
            rest rest'
      | _ => cases hvariant
  | bigDec number =>
      cases b with
      | bigDec number' =>
          exact compares_variant (@compares_signed 16 (by decide)) 0x0B (fun _ => rfl)
            (fun _ _ => by simp [Value.toVariants, Sum.inrₗ]) trivial trivial hlt rest rest'
      | _ => cases hvariant

end Values

section Datoms

/-- The name and the payload of a datom fit the lengths in front of them. -/
def Datom.Encodable (d : Datom) : Prop :=
  (utf8Bytes d.attr).length ≤ maxAttributeBytes ∧ d.value.Encodable

/-- The keys of two datoms compare like the first fields in which the datoms differ. -/
theorem compares_canonicalBytes :
    Compares Datom.canonicalBytes Datom.Encodable Datom.KeyOrdered := by
  have hfields := (compares_fixed 32).pair
    (compares_canonicalAttrBytes.pair (compares_value.pair (compares_tx.pair compares_op)))
  have hdatom := @Compares.comap _ _ _ _ _ Datom.canonicalBytes _ _ hfields Datom.sortKey
    (fun _ _ hlt => hlt) Datom.canonicalBytes_eq
  intro a b ha hb hlt rest rest'
  rw [hdatom a b ⟨trivial, ha.1, ha.2, trivial, trivial⟩ ⟨trivial, hb.1, hb.2, trivial, trivial⟩
    hlt rest rest', Datom.KeyOrdered]
  congr! 1

/-- The keys of two datoms ascend exactly when the datoms are in key order. -/
theorem canonicalBytes_lt_iff {a b : Datom} (ha : a.Encodable) (hb : b.Encodable) (hlt : a < b) :
    a.canonicalBytes < b.canonicalBytes ↔ a.KeyOrdered b := by
  have hkeys := compares_canonicalBytes a b ha hb hlt [] []
  rwa [List.append_nil, List.append_nil] at hkeys

variable [Blake3] {D : Finset Datom}

/-- The keys of a chunk ascend exactly when those of every two ascending datoms do. -/
theorem keysAscend_iff : KeysAscend (datomSetToPairChunk D).entries ↔
    ∀ a ∈ D, ∀ b ∈ D, a < b → a.canonicalBytes < b.canonicalBytes := by
  show ((D.sort (· ≤ ·)).map Datom.pairEntry).Pairwise (fun a b => a.1 < b.1) ↔ _
  rw [List.pairwise_map, pairwise_iff_of_ascending (Finset.sortedLT_sort D).pairwise]
  simp only [Finset.mem_sort, Datom.pairEntry]

/-- The entries of a set stand in the order of their keys, as the assertion wants, exactly if the
first fields in which its datoms differ have their bytes in the order of the datoms. -/
theorem datomSetToPairChunk_ascends_iff (h : ∀ d ∈ D, d.Encodable) :
    KeysAscend (datomSetToPairChunk D).entries ↔
      ∀ a ∈ D, ∀ b ∈ D, a < b → a.KeyOrdered b := by
  rw [keysAscend_iff]
  refine forall₂_congr fun a ha => forall₂_congr fun b hb => forall_congr' fun hlt => ?_
  exact canonicalBytes_lt_iff (h a ha) (h b hb) hlt

end Datoms

section Sample

/-- The sample datoms are ordered as their values. -/
theorem datomWith_lt {a b : Value} (h : a < b) : datomWith a < datomWith b :=
  Prod.Lex.lt_iff.mpr (.inr ⟨rfl, Prod.Lex.lt_iff.mpr (.inr ⟨rfl, Prod.Lex.lt_iff.mpr (.inl h)⟩)⟩)

/-- The sample datoms are in key order exactly when their values are. -/
theorem keyOrdered_datomWith {a b : Value} (h : a ≠ b) :
    (datomWith a).KeyOrdered (datomWith b) ↔ a.KeyOrdered b := by
  simp only [Datom.KeyOrdered, datomWith, if_true, if_neg h]

/-- Two numbers whose bytes are in the order of the numbers. -/
def lowNumbers : Finset Datom :=
  {datomWith (.long ⟨1, by decide⟩), datomWith (.long ⟨2, by decide⟩)}

/-- The keys of two numbers that differ in their first bytes only ascend. -/
theorem datomSetToPairChunk_ascends_numbers :
    KeysAscend (datomSetToPairChunk lowNumbers).entries := by
  have hnumber {d : Datom} (hd : d ∈ lowNumbers) :
      d = datomWith (.long ⟨1, by decide⟩) ∨ d = datomWith (.long ⟨2, by decide⟩) :=
    (Finset.mem_insert.mp hd).imp_right Finset.mem_singleton.mp
  have hvalue : Value.long ⟨1, by decide⟩ < Value.long ⟨2, by decide⟩ := by decide
  have hswap : swapBytes 8 1 < swapBytes 8 2 := by decide
  refine (datomSetToPairChunk_ascends_iff fun d hd => ?_).mpr fun a ha b hb hlt => ?_
  · rcases hnumber hd with rfl | rfl
    · exact ⟨length_datomWith_attr _, trivial⟩
    · exact ⟨length_datomWith_attr _, trivial⟩
  · rcases hnumber ha with rfl | rfl
    · rcases hnumber hb with rfl | rfl
      · exact absurd hlt (lt_irrefl _)
      · exact (keyOrdered_datomWith hvalue.ne).mpr hswap
    · rcases hnumber hb with rfl | rfl
      · exact absurd hlt (datomWith_lt hvalue).asymm
      · exact absurd hlt (lt_irrefl _)

/-- The datom of 255 sorts before that of 256, and its key after: the first byte of the one number
is `0xFF` and that of the other zero. -/
theorem twoNumbers_descends :
    (∀ d ∈ twoNumbers, d.Encodable) ∧
      ¬ KeysAscend (datomSetToPairChunk twoNumbers).entries := by
  have hencodable (d : Datom) (hd : d ∈ twoNumbers) : d.Encodable :=
    ⟨(chunkEncodable_twoNumbers hd).attr, (chunkEncodable_twoNumbers hd).value⟩
  refine ⟨hencodable, fun hascend => ?_⟩
  have hvalue : Value.long ⟨255, by decide⟩ < Value.long ⟨256, by decide⟩ := by decide
  have hswap : ¬ swapBytes 8 255 < swapBytes 8 256 := by decide
  have hmem : datom255 ∈ twoNumbers := Finset.mem_insert_self _ _
  have hmem' : datom256 ∈ twoNumbers := Finset.mem_insert_of_mem (Finset.mem_singleton_self _)
  have hlt : datom255 < datom256 := datomWith_lt hvalue
  have hkeys := keysAscend_iff.mp hascend _ hmem _ hmem' hlt
  rw [canonicalBytes_lt_iff (hencodable _ hmem) (hencodable _ hmem') hlt] at hkeys
  exact hswap ((keyOrdered_datomWith hvalue.ne).mp hkeys)

end Sample

end Ferratomic
