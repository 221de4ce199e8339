import Ferratomic.Lib.Bytes

/-!
# Byte codecs

A codec pairs an encoder with a decoder that reads one value off the front of a byte string. It
carries the proof that decoding undoes encoding, in front of any suffix, for the values it
accepts. Codecs compose: pairs, lists, strings, options, enumerations and refinements are built
from the codecs of their parts and the law is derived from theirs.
-/

namespace Ferratomic.Lib

/-- An encoder and a decoder that undoes it on accepted values. -/
structure Codec (α : Type) where
  encode : α → Bytes
  decode : Bytes → Option (α × Bytes)
  accepts : α → Prop
  decode_encode : ∀ a, accepts a → ∀ rest, decode (encode a ++ rest) = some (a, rest)

namespace Codec

variable {α β : Type}

/-- One value after the other. -/
def pair (left : Codec α) (right : Codec β) : Codec (α × β) where
  encode value := left.encode value.1 ++ right.encode value.2
  decode buf := do
    let (first, buf) ← left.decode buf
    let (second, buf) ← right.decode buf
    pure ((first, second), buf)
  accepts value := left.accepts value.1 ∧ right.accepts value.2
  decode_encode := by
    intro value h rest
    simp [List.append_assoc, left.decode_encode _ h.1, right.decode_encode _ h.2]

/-- A codec for another representation of the values; the decoder may reject. -/
def via (codec : Codec α) (unpack : β → α) (pack : α → Option β)
    (pack_unpack : ∀ value, pack (unpack value) = some value) : Codec β where
  encode value := codec.encode (unpack value)
  decode buf := do
    let (value, buf) ← codec.decode buf
    let value ← pack value
    pure (value, buf)
  accepts value := codec.accepts (unpack value)
  decode_encode := by
    intro value h rest
    simp [codec.decode_encode _ h, pack_unpack]

/-- A codec whose decoder rejects values that fail a test. -/
def checked (codec : Codec α) (test : α → Bool) : Codec α where
  encode := codec.encode
  decode buf := do
    let (value, buf) ← codec.decode buf
    if test value then pure (value, buf) else none
  accepts value := codec.accepts value ∧ test value = true
  decode_encode := by
    intro value h rest
    simp [codec.decode_encode _ h.1, h.2]

/-- A fixed number of raw bytes. -/
def bytes (width : Nat) : Codec (FixedBytes width) where
  encode value := value.val
  decode buf :=
    if h : (buf.take width).length = width then some (⟨buf.take width, h⟩, buf.drop width)
    else none
  accepts _ := True
  decode_encode := by
    rintro ⟨value, hvalue⟩ - rest
    have htake : (value ++ rest).take width = value := List.take_left' hvalue
    have hdrop : (value ++ rest).drop width = rest := List.drop_left' hvalue
    simp only [htake, hdrop, hvalue, dif_pos]

/-- A little-endian unsigned integer. -/
def uint (width : Nat) : Codec (Fin (256 ^ width)) :=
  (bytes width).via
    (fun value => ⟨leBytes width value, length_leBytes _ _⟩)
    (fun raw => some ⟨leNat raw.val, by
      have := leNat_lt raw.val
      rwa [raw.property] at this⟩)
    (fun value => congrArg some (Fin.ext (leNat_leBytes value.isLt)))

/-- The lengths below are written in eight bytes. -/
def lengthLimit : Nat := 2 ^ 64 - 1

/-- The bytes that mark a length beyond the limit, and the excess in unary. -/
def longLength (excess : Nat) : Bytes :=
  List.replicate 8 0xFF ++ (List.replicate excess 1 ++ [0])

/-- Count the ones in front of a terminating byte. -/
def readUnary : Bytes → Option (Nat × Bytes)
  | [] => none
  | byte :: buf =>
      if byte = 1 then (readUnary buf).map fun (count, rest) => (count + 1, rest)
      else some (0, buf)

/-- A unary count is read back. -/
theorem readUnary_replicate (count : Nat) (rest : Bytes) :
    readUnary (List.replicate count 1 ++ (0 :: rest)) = some (count, rest) := by
  induction count with
  | zero => simp [readUnary]
  | succ count ih => simp [List.replicate_succ, readUnary, ih]

/-- The mark of a long length is the limit of the short ones. -/
theorem leNat_mark : leNat (List.replicate 8 0xFF) = lengthLimit := by
  decide +kernel

/-- A length below the limit fits the eight length bytes. -/
theorem lt_of_lt_lengthLimit {count : Nat} (h : count < lengthLimit) : count < 256 ^ 8 := by
  rw [lengthLimit] at h
  omega

/-- A 64-bit length. Lists of the model are unbounded, so a length that no machine reaches is
written in an extended form, which keeps the codec total. -/
def length : Codec Nat where
  encode count :=
    if count < lengthLimit then leBytes 8 count else longLength (count - lengthLimit)
  decode buf :=
    if buf.length < 8 then none
    else if leNat (buf.take 8) < lengthLimit then some (leNat (buf.take 8), buf.drop 8)
    else (readUnary (buf.drop 8)).map fun (excess, rest) => (lengthLimit + excess, rest)
  accepts _ := True
  decode_encode := by
    intro count _ rest
    by_cases h : count < lengthLimit
    · have htake : (leBytes 8 count ++ rest).take 8 = leBytes 8 count :=
        List.take_left' (length_leBytes _ _)
      have hdrop : (leBytes 8 count ++ rest).drop 8 = rest :=
        List.drop_left' (length_leBytes _ _)
      have hlen : ¬ (leBytes 8 count ++ rest).length < 8 := by
        rw [List.length_append, length_leBytes]
        omega
      rw [if_pos h, if_neg hlen, htake, leNat_leBytes (lt_of_lt_lengthLimit h), if_pos h, hdrop]
    · obtain ⟨excess, rfl⟩ := Nat.exists_eq_add_of_le (Nat.le_of_not_lt h)
      have htake : (longLength excess ++ rest).take 8 = List.replicate 8 0xFF := by
        rw [longLength, List.append_assoc, List.take_left' List.length_replicate]
      have hdrop : (longLength excess ++ rest).drop 8 =
          List.replicate excess 1 ++ (0 :: rest) := by
        rw [longLength, List.append_assoc, List.drop_left' List.length_replicate,
          List.append_assoc, List.singleton_append]
      have hlen : ¬ (longLength excess ++ rest).length < 8 := by
        simp [longLength]
      rw [if_neg h, Nat.add_sub_cancel_left, if_neg hlen, htake, leNat_mark,
        if_neg (Nat.lt_irrefl _), hdrop, readUnary_replicate, Option.map_some]

/-- Read a number of values. -/
def readMany (codec : Codec α) : Nat → Bytes → Option (List α × Bytes)
  | 0, buf => some ([], buf)
  | count + 1, buf => do
      let (value, buf) ← codec.decode buf
      let (values, buf) ← readMany codec count buf
      pure (value :: values, buf)

/-- Accepted values are read back from their concatenated encodings. -/
theorem readMany_flatMap (codec : Codec α) {values : List α}
    (h : ∀ value ∈ values, codec.accepts value) (rest : Bytes) :
    codec.readMany values.length (values.flatMap codec.encode ++ rest) =
      some (values, rest) := by
  induction values with
  | nil => rfl
  | cons value values ih =>
      have hhead := codec.decode_encode value (h value List.mem_cons_self)
      have htail := ih fun v hv => h v (List.mem_cons_of_mem _ hv)
      simp [readMany, List.append_assoc, hhead, htail]

/-- A length and that many values. -/
def list (codec : Codec α) : Codec (List α) where
  encode values := length.encode values.length ++ values.flatMap codec.encode
  decode buf := do
    let (count, buf) ← length.decode buf
    codec.readMany count buf
  accepts values := ∀ value ∈ values, codec.accepts value
  decode_encode := by
    intro values h rest
    simp [List.append_assoc, length.decode_encode _ trivial, readMany_flatMap codec h]

/-- One byte. -/
def byte : Codec UInt8 where
  encode value := [value]
  decode
    | [] => none
    | value :: buf => some (value, buf)
  accepts _ := True
  decode_encode _ _ _ := rfl

/-- The string that a byte string encodes, if it is valid UTF-8. -/
def ofUtf8 (raw : Bytes) : Option String :=
  String.fromUTF8? ⟨raw.toArray⟩

/-- A length and the UTF-8 bytes of a string. -/
def string : Codec String where
  encode text := byte.list.encode text.toUTF8.data.toList
  decode buf := do
    let (raw, buf) ← byte.list.decode buf
    let text ← ofUtf8 raw
    pure (text, buf)
  accepts _ := True
  decode_encode := by
    intro text _ rest
    have hraw := byte.list.decode_encode text.toUTF8.data.toList (fun _ _ => trivial) rest
    have htext : ofUtf8 text.toUTF8.data.toList = some text := by
      rw [ofUtf8, Array.toArray_toList]
      exact dif_pos text.isValidUTF8
    show (byte.list.decode _).bind _ = _
    rw [hraw, Option.bind_some]
    show (ofUtf8 _).bind _ = _
    rw [htext]
    rfl

/-- An enumeration: its position in the list of variants, in four bytes. -/
def enum (variants : List α) (rank : α → Nat) (hrank : ∀ value, rank value < 256 ^ 4)
    (hget : ∀ value, variants[rank value]? = some value) : Codec α where
  encode value := leBytes 4 (rank value)
  decode buf := do
    let (index, buf) ← (uint 4).decode buf
    let value ← variants[index.val]?
    pure (value, buf)
  accepts _ := True
  decode_encode := by
    intro value _ rest
    have hindex := (uint 4).decode_encode ⟨rank value, hrank value⟩ trivial rest
    have hencode : (uint 4).encode ⟨rank value, hrank value⟩ = leBytes 4 (rank value) := rfl
    rw [hencode] at hindex
    simp [hindex, hget]

/-- A flag byte. -/
def bool : Codec Bool where
  encode flag := [if flag then 1 else 0]
  decode
    | [] => none
    | flag :: buf =>
        if flag = 0 then some (false, buf) else if flag = 1 then some (true, buf) else none
  accepts _ := True
  decode_encode := by
    intro flag _ rest
    cases flag <;> rfl

/-- A flag byte and, when it is set, the value. -/
def option (codec : Codec α) : Codec (Option α) where
  encode
    | none => [0]
    | some value => 1 :: codec.encode value
  decode buf := do
    let (present, buf) ← bool.decode buf
    if present then
      let (value, buf) ← codec.decode buf
      pure (some value, buf)
    else pure (none, buf)
  accepts value := ∀ a, value = some a → codec.accepts a
  decode_encode := by
    intro value h rest
    cases value with
    | none => rfl
    | some a =>
        have hflag : bool.decode (1 :: (codec.encode a ++ rest)) =
            some (true, codec.encode a ++ rest) := rfl
        simp [hflag, codec.decode_encode a (h a rfl)]

/-- The number whose binary digits, least significant first, are the given bits. -/
def bitsNat : List Bool → Nat
  | [] => 0
  | bit :: bits => bit.toNat + 2 * bitsNat bits

/-- The binary digits of a number, least significant first. -/
def natBits : Nat → Nat → List Bool
  | 0, _ => []
  | width + 1, value => (value % 2 == 1) :: natBits width (value / 2)

/-- The number of some bits fits as many. -/
theorem bitsNat_lt (bits : List Bool) : bitsNat bits < 2 ^ bits.length := by
  induction bits with
  | nil => simp [bitsNat]
  | cons bit bits ih =>
      have hbit : bit.toNat < 2 := bit.toNat_lt
      simp only [bitsNat, List.length_cons, Nat.pow_succ]
      omega

/-- Bits are read back from their number. -/
theorem natBits_bitsNat (bits : List Bool) {width : Nat} (h : bits.length ≤ width) :
    (natBits width (bitsNat bits)).take bits.length = bits := by
  induction bits generalizing width with
  | nil => simp
  | cons bit bits ih =>
      cases width with
      | zero => simp at h
      | succ width =>
          have hmod : (bit.toNat + 2 * bitsNat bits) % 2 = bit.toNat := by
            have := bit.toNat_lt
            omega
          have hdiv : (bit.toNat + 2 * bitsNat bits) / 2 = bitsNat bits := by
            have := bit.toNat_lt
            omega
          have hbit : (bit.toNat == 1) = bit := by cases bit <;> rfl
          simp only [List.length_cons, Nat.add_le_add_iff_right] at h
          simp only [bitsNat, natBits, List.length_cons, List.take_succ_cons, hmod, hdiv, hbit,
            ih h]

/-- A number of words of the given width, the last one padded with zeros. -/
def packWords (width : Nat) : Nat → List Bool → List Nat
  | 0, _ => []
  | count + 1, bits => bitsNat (bits.take width) :: packWords width count (bits.drop width)

/-- As many bits are read as were asked for. -/
@[simp]
theorem length_natBits (width value : Nat) : (natBits width value).length = width := by
  induction width generalizing value with
  | zero => rfl
  | succ width ih => rw [natBits, List.length_cons, ih]

/-- A packed word fits its width. -/
theorem lt_of_mem_packWords {width count : Nat} {bits : List Bool} {word : Nat}
    (h : word ∈ packWords width count bits) : word < 2 ^ width := by
  induction count generalizing bits with
  | zero => cases h
  | succ count ih =>
      rcases List.mem_cons.mp h with rfl | hrest
      · refine Nat.lt_of_lt_of_le (bitsNat_lt _) (Nat.pow_le_pow_right (by decide) ?_)
        rw [List.length_take]
        exact Nat.min_le_left _ _
      · exact ih hrest

/-- Bits are read back from the words they are packed into. -/
theorem flatMap_packWords {width count : Nat} {bits : List Bool}
    (h : bits.length ≤ width * count) :
    ((packWords width count bits).flatMap (natBits width)).take bits.length = bits := by
  induction count generalizing bits with
  | zero =>
      have hnil : bits = [] := List.eq_nil_of_length_eq_zero (by simpa using h)
      rw [hnil]
      rfl
  | succ count ih =>
      have hlen : (bits.take width).length = min width bits.length := List.length_take
      have hword := natBits_bitsNat (bits.take width) (Nat.le_trans hlen.le (Nat.min_le_left _ _))
      have hrest : (bits.drop width).length ≤ width * count := by
        rw [List.length_drop]
        rw [Nat.mul_succ] at h
        omega
      have hfirst : (natBits width (bitsNat (bits.take width))).take bits.length =
          bits.take width := by
        have hall : (natBits width (bitsNat (bits.take width))).take width =
            natBits width (bitsNat (bits.take width)) :=
          List.take_of_length_le (length_natBits _ _).le
        rw [hlen] at hword
        rw [← hall, List.take_take, Nat.min_comm, hword]
      rw [packWords, List.flatMap_cons, List.take_append, length_natBits, hfirst,
        ← List.length_drop, ih hrest, List.take_append_drop]

end Codec

section SelfDelimiting

variable {α : Type}

/-- Accepted values can be cut off the front of a byte string: what follows an encoding does not
change how it is read. -/
def SelfDelimiting (encode : α → Bytes) (accepts : α → Prop) : Prop :=
  ∀ a b, accepts a → accepts b → ∀ rest rest', encode a ++ rest = encode b ++ rest' →
    a = b ∧ rest = rest'

/-- The encodings of a codec delimit themselves. -/
theorem Codec.selfDelimiting (codec : Codec α) : SelfDelimiting codec.encode codec.accepts := by
  intro a b ha hb rest rest' h
  have hread := codec.decode_encode a ha rest
  rw [h, codec.decode_encode b hb rest', Option.some.injEq, Prod.mk.injEq] at hread
  exact ⟨hread.1.symm, hread.2.symm⟩

/-- A saturating count in front of data that it counts. -/
theorem selfDelimiting_counted {width bound : Nat} (hbound : bound < 256 ^ width) :
    SelfDelimiting (fun data : Bytes => leBytes width (min data.length bound) ++ data)
      (fun data => data.length ≤ bound) := by
  intro a b ha hb rest rest' h
  beta_reduce at h
  rw [min_eq_left ha, min_eq_left hb, List.append_assoc, List.append_assoc] at h
  obtain ⟨hcount, hdata⟩ := List.append_inj h (by rw [length_leBytes, length_leBytes])
  have hlength : a.length = b.length :=
    leBytes_inj (Nat.lt_of_le_of_lt ha hbound) (Nat.lt_of_le_of_lt hb hbound) hcount
  exact List.append_inj hdata hlength

/-- Two sequences of values in front of the same bytes: they are the same, or one of them goes on
where the other has ended. -/
theorem SelfDelimiting.flatMap_cases {encode : α → Bytes} {accepts : α → Prop}
    (h : SelfDelimiting encode accepts) {left right : List α}
    (hleft : ∀ a ∈ left, accepts a) (hright : ∀ a ∈ right, accepts a) {rest rest' : Bytes}
    (heq : left.flatMap encode ++ rest = right.flatMap encode ++ rest') :
    (left = right ∧ rest = rest') ∨
      (∃ extra, extra ≠ [] ∧ left = right ++ extra ∧ extra.flatMap encode ++ rest = rest') ∨
      ∃ extra, extra ≠ [] ∧ right = left ++ extra ∧ extra.flatMap encode ++ rest' = rest := by
  induction left generalizing right with
  | nil =>
      cases right with
      | nil => exact .inl ⟨rfl, heq⟩
      | cons b right => exact .inr (.inr ⟨b :: right, List.cons_ne_nil _ _, rfl, heq.symm⟩)
  | cons a left ih =>
      cases right with
      | nil => exact .inr (.inl ⟨a :: left, List.cons_ne_nil _ _, rfl, heq⟩)
      | cons b right =>
          rw [List.flatMap_cons, List.flatMap_cons, List.append_assoc, List.append_assoc] at heq
          obtain ⟨rfl, htail⟩ := h a b (hleft a List.mem_cons_self) (hright b List.mem_cons_self)
            _ _ heq
          rcases ih (fun c hc => hleft c (List.mem_cons_of_mem _ hc))
            (fun c hc => hright c (List.mem_cons_of_mem _ hc)) htail with
            ⟨rfl, hrest⟩ | ⟨extra, hne, rfl, hrest⟩ | ⟨extra, hne, rfl, hrest⟩
          · exact .inl ⟨rfl, hrest⟩
          · exact .inr (.inl ⟨extra, hne, rfl, hrest⟩)
          · exact .inr (.inr ⟨extra, hne, rfl, hrest⟩)

end SelfDelimiting

end Ferratomic.Lib
