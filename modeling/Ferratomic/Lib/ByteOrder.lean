import Ferratomic.Lib.Bytes

/-!
# The order of encodings

Byte strings are compared from the left. `Compares encode fits R` says that on items in ascending
order the encodings compare as `R` says, whatever follows them: the comparison is decided within the
encodings. The rules give `R` for fields of a fixed width (`compares_fixed`), for little-endian
numbers (`compares_number`), which compare like the numbers with their bytes swapped, for counted
data (`compares_counted`) and one field after the other (`Compares.pair`). The bytes of a string
compare like its characters (`flatMap_utf8EncodeChar_lt`).
-/

namespace Ferratomic.Lib

/-- A common start does not count in the order of bytes. -/
theorem append_lt_append_left_iff (x : Bytes) {r s : Bytes} : x ++ r < x ++ s ↔ r < s := by
  induction x with
  | nil => rfl
  | cons byte x ih => rw [List.cons_append, List.cons_append, List.cons_lt_cons_self, ih]

/-- Different byte strings of one length decide the comparison of what they begin. -/
theorem append_lt_append_iff {x y : Bytes} (hlength : x.length = y.length) (hne : x ≠ y)
    (r s : Bytes) : x ++ r < y ++ s ↔ x < y := by
  induction x generalizing y with
  | nil => exact absurd (List.length_eq_zero_iff.mp hlength.symm).symm hne
  | cons a x ih =>
      cases y with
      | nil => cases hlength
      | cons b y =>
          rw [List.cons_append, List.cons_append, List.cons_lt_cons_iff, List.cons_lt_cons_iff]
          refine or_congr_right (and_congr_right fun hab => ih (Nat.succ.inj hlength) fun hxy => ?_)
          exact hne (by rw [hab, hxy])

section BigEndian

/-- The number that a big-endian byte string denotes. -/
def beNat (bytes : Bytes) : Nat :=
  leNat bytes.reverse

/-- The little-endian number of two parts. -/
theorem leNat_append (low high : Bytes) :
    leNat (low ++ high) = leNat low + 256 ^ low.length * leNat high := by
  induction low with
  | nil => simp [leNat]
  | cons byte low ih =>
      rw [List.cons_append, leNat, leNat, ih, List.length_cons, Nat.pow_succ']
      ring

/-- The big-endian number of a first byte and the rest. -/
theorem beNat_cons (byte : UInt8) (bytes : Bytes) :
    beNat (byte :: bytes) = byte.toNat * 256 ^ bytes.length + beNat bytes := by
  rw [beNat, List.reverse_cons, leNat_append, List.length_reverse, beNat, leNat, leNat]
  ring

/-- The big-endian number of some bytes fits as many. -/
theorem beNat_lt (bytes : Bytes) : beNat bytes < 256 ^ bytes.length := by
  have h := leNat_lt bytes.reverse
  rwa [List.length_reverse] at h

/-- Byte strings of one length compare like the big-endian numbers. -/
theorem beNat_le {a b : Bytes} (hlength : a.length = b.length) (h : a ≤ b) : beNat a ≤ beNat b := by
  induction a generalizing b with
  | nil =>
      obtain rfl := List.length_eq_zero_iff.mp hlength.symm
      exact Nat.le_refl _
  | cons x a ih =>
      cases b with
      | nil => cases hlength
      | cons y b =>
          have hlength' : a.length = b.length := Nat.succ.inj hlength
          have ha := beNat_lt a
          rw [beNat_cons, beNat_cons, hlength']
          rw [hlength'] at ha
          rcases h.eq_or_lt with heq | hlt
          · cases heq
            exact Nat.le_refl _
          rcases List.cons_lt_cons_iff.mp hlt with hfirst | ⟨rfl, hrest⟩
          · have hmul : (x.toNat + 1) * 256 ^ b.length ≤ y.toNat * 256 ^ b.length :=
              Nat.mul_le_mul_right _ (UInt8.lt_iff_toNat_lt.mp hfirst)
            rw [Nat.succ_mul] at hmul
            omega
          · exact Nat.add_le_add_left (ih hlength' hrest.le) _

/-- Byte strings in order begin in order. -/
theorem take_le_take {a b : Bytes} (count : Nat) (hlength : a.length = b.length) (h : a ≤ b) :
    a.take count ≤ b.take count := by
  by_contra hnot
  have hlt : b.take count < a.take count := not_le.mp hnot
  have htake : (b.take count).length = (a.take count).length := by
    rw [List.length_take, List.length_take, hlength]
  have hwhole := (append_lt_append_iff htake hlt.ne (b.drop count) (a.drop count)).mpr hlt
  rw [List.take_append_drop, List.take_append_drop] at hwhole
  exact absurd h (not_le.mpr hwhole)

end BigEndian

section Numbers

/-- `swap_bytes`: the number whose bytes are those of another in the reverse order. -/
def swapBytes : Nat → Nat → Nat
  | 0, _ => 0
  | width + 1, value => value % 256 * 256 ^ width + swapBytes width (value / 256)

/-- Swapping the bytes of a number keeps it within the width. -/
theorem swapBytes_lt (width value : Nat) : swapBytes width value < 256 ^ width := by
  induction width generalizing value with
  | zero => exact Nat.one_pos
  | succ width ih =>
      have hrest := ih (value / 256)
      have hbyte : value % 256 * 256 ^ width ≤ 255 * 256 ^ width :=
        Nat.mul_le_mul_right _ (Nat.le_of_lt_succ (Nat.mod_lt _ (by decide)))
      rw [swapBytes, Nat.pow_succ]
      omega

/-- Little-endian bytes compare as the numbers do with their bytes swapped. -/
theorem leBytes_lt_iff (width a b : Nat) :
    leBytes width a < leBytes width b ↔ swapBytes width a < swapBytes width b := by
  induction width generalizing a b with
  | zero => exact iff_of_false (lt_irrefl _) (lt_irrefl _)
  | succ width ih =>
      have hbyte (n : Nat) : (UInt8.ofNat (n % 256)).toNat = n % 256 := by simp
      have ha := swapBytes_lt width (a / 256)
      have hb := swapBytes_lt width (b / 256)
      rw [leBytes, leBytes, List.cons_lt_cons_iff, ih, swapBytes, swapBytes,
        UInt8.lt_iff_toNat_lt, ← UInt8.toNat_inj, hbyte, hbyte]
      rcases lt_trichotomy (a % 256) (b % 256) with hlt | heq | hgt
      · have hmul : (a % 256 + 1) * 256 ^ width ≤ b % 256 * 256 ^ width :=
          Nat.mul_le_mul_right _ hlt
        rw [Nat.succ_mul] at hmul
        exact iff_of_true (.inl hlt) (by omega)
      · rw [heq]
        omega
      · have hmul : (b % 256 + 1) * 256 ^ width ≤ a % 256 * 256 ^ width :=
          Nat.mul_le_mul_right _ hgt
        rw [Nat.succ_mul] at hmul
        exact iff_of_false (by omega) (by omega)

/-- Swapping the bytes is injective within the width. -/
theorem swapBytes_inj {width a b : Nat} (ha : a < 256 ^ width) (hb : b < 256 ^ width)
    (h : swapBytes width a = swapBytes width b) : a = b := by
  refine leBytes_inj ha hb (eq_of_le_of_not_lt (not_lt.mp fun hlt => ?_) fun hlt => ?_)
  · exact absurd ((leBytes_lt_iff width b a).mp hlt) (by omega)
  · exact absurd ((leBytes_lt_iff width a b).mp hlt) (by omega)

end Numbers

section Rules

variable {α β : Type}

/-- On items in ascending order the encodings compare as `R` says, whatever follows them. -/
def Compares [LT α] (encode : α → Bytes) (fits : α → Prop) (R : α → α → Prop) : Prop :=
  ∀ a b, fits a → fits b → a < b → ∀ rest rest', encode a ++ rest < encode b ++ rest' ↔ R a b

/-- Items are encoded and ordered by a key. -/
theorem Compares.comap [LT α] [LT β] {encode : α → Bytes} {encode' : β → Bytes} {fits : α → Prop}
    {R : α → α → Prop} (h : Compares encode fits R) (key : β → α)
    (hkey : ∀ a b, a < b → key a < key b) (hencode : ∀ a, encode' a = encode (key a)) :
    Compares encode' (fun a => fits (key a)) fun a b => R (key a) (key b) := by
  intro a b ha hb hlt rest rest'
  rw [hencode, hencode]
  exact h _ _ ha hb (hkey a b hlt) rest rest'

/-- Bytes of a fixed length compare like the items. -/
theorem compares_fixed (length : Nat) :
    Compares (fun bytes : FixedBytes length => bytes.val) (fun _ => True) fun _ _ => True := by
  intro a b _ _ hlt rest rest'
  have hlength : a.val.length = b.val.length := by rw [a.property, b.property]
  rw [append_lt_append_iff hlength (fun h => hlt.ne (Subtype.ext h))]
  exact iff_of_true hlt trivial

/-- Little-endian numbers compare like the numbers with their bytes swapped. -/
theorem compares_number [Preorder α] {width : Nat} {value : α → Nat}
    (hbound : ∀ a, value a < 256 ^ width) (hinj : Function.Injective value) :
    Compares (fun a => leBytes width (value a)) (fun _ => True)
      fun a b => swapBytes width (value a) < swapBytes width (value b) := by
  intro a b _ _ hlt rest rest'
  have hne : leBytes width (value a) ≠ leBytes width (value b) :=
    fun h => hlt.ne (hinj (leBytes_inj (hbound a) (hbound b) h))
  rw [append_lt_append_iff (by simp) hne, leBytes_lt_iff]

/-- Counted data compare like their lengths with the bytes swapped; data of one length compare like
the items. The length saturates at a bound that the data fit. -/
theorem compares_counted [Preorder α] {width bound : Nat} (hbound : 256 ^ width = bound + 1)
    {data : α → Bytes} (hdata : ∀ a b, a < b → data a < data b) :
    Compares (fun a => leBytes width (min (data a).length bound) ++ data a)
      (fun a => (data a).length ≤ bound)
      fun a b => swapBytes width (data a).length ≤ swapBytes width (data b).length := by
  intro a b ha hb hlt rest rest'
  beta_reduce
  rw [List.append_assoc, List.append_assoc, min_eq_left ha, min_eq_left hb]
  by_cases hlength : (data a).length = (data b).length
  · have hdata := hdata a b hlt
    rw [hlength, append_lt_append_left_iff, append_lt_append_iff hlength hdata.ne]
    exact iff_of_true hdata le_rfl
  · have ha : (data a).length < 256 ^ width := hbound ▸ Nat.lt_succ_of_le ha
    have hb : (data b).length < 256 ^ width := hbound ▸ Nat.lt_succ_of_le hb
    have hne : leBytes width (data a).length ≠ leBytes width (data b).length :=
      fun h => hlength (leBytes_inj ha hb h)
    have hswap : swapBytes width (data a).length ≠ swapBytes width (data b).length :=
      fun h => hlength (swapBytes_inj ha hb h)
    rw [append_lt_append_iff (by simp) hne, leBytes_lt_iff, le_iff_lt_or_eq, or_iff_left hswap]

/-- One field after the other: the first one in which the items differ decides. -/
theorem Compares.pair [LinearOrder α] [LinearOrder β] {encode : α → Bytes} {encode' : β → Bytes}
    {fits : α → Prop} {fits' : β → Prop} {R : α → α → Prop} {R' : β → β → Prop}
    (h : Compares encode fits R) (h' : Compares encode' fits' R') :
    Compares (fun p : α ×ₗ β => encode (ofLex p).1 ++ encode' (ofLex p).2)
      (fun p => fits (ofLex p).1 ∧ fits' (ofLex p).2)
      fun p q => if (ofLex p).1 = (ofLex q).1 then R' (ofLex p).2 (ofLex q).2
        else R (ofLex p).1 (ofLex q).1 := by
  intro p q hp hq hlt rest rest'
  beta_reduce
  rw [List.append_assoc, List.append_assoc]
  rcases Prod.Lex.lt_iff.mp hlt with hfirst | ⟨hfirst, hsecond⟩
  · rw [if_neg hfirst.ne]
    exact h _ _ hp.1 hq.1 hfirst _ _
  · rw [if_pos hfirst, hfirst, append_lt_append_left_iff]
    exact h' _ _ hp.2 hq.2 hsecond _ _

end Rules

section Utf8

/-- The first six-bit digit in which two numbers differ decides their order. -/
theorem digits_lt {m n : Nat} (h : m < n) :
    m / 262144 < n / 262144 ∨ m / 262144 = n / 262144 ∧
      (m / 4096 % 64 < n / 4096 % 64 ∨ m / 4096 % 64 = n / 4096 % 64 ∧
        (m / 64 % 64 < n / 64 % 64 ∨ m / 64 % 64 = n / 64 % 64 ∧ m % 64 < n % 64)) := by
  have hfirst : m / 262144 = m / 4096 / 64 ∧ n / 262144 = n / 4096 / 64 := by omega
  have hsecond : m / 4096 = m / 64 / 64 ∧ n / 4096 = n / 64 / 64 := by omega
  rw [hfirst.1, hfirst.2, hsecond.1, hsecond.2]
  omega

/-- The bytes of a character decide the comparison of what they begin. -/
theorem utf8EncodeChar_lt {c d : Char} (h : c < d) (rest rest' : Bytes) :
    String.utf8EncodeChar c ++ rest < String.utf8EncodeChar d ++ rest' := by
  have hlt : c.val.toNat < d.val.toNat := h
  have hmax : d.val.toNat < 0x110000 := by
    rcases d.valid with hlow | ⟨-, hhigh⟩
    · exact hlow.trans (by decide)
    · exact hhigh
  have hdigits := digits_lt hlt
  have hbyte {n : Nat} (hn : n < 256) : (UInt8.ofNat n).toNat = n := UInt8.toNat_ofNat_of_lt' hn
  have htop : c.val.toNat / 262144 % 8 = c.val.toNat / 262144 ∧
      d.val.toNat / 262144 % 8 = d.val.toNat / 262144 := by omega
  simp only [String.utf8EncodeChar, htop.1, htop.2]
  -- A longer encoding has a greater first byte, and those of one length compare like their digits.
  split_ifs <;>
    simp (disch := omega) only [List.cons_append, List.nil_append, List.cons_lt_cons_iff,
      UInt8.lt_iff_toNat_lt, ← UInt8.toNat_inj, hbyte] <;>
    omega

/-- UTF-8 keeps the order of the characters. -/
theorem flatMap_utf8EncodeChar_lt {s t : List Char} (h : s < t) :
    s.flatMap String.utf8EncodeChar < t.flatMap String.utf8EncodeChar := by
  induction s generalizing t with
  | nil =>
      cases t with
      | nil => exact absurd h (lt_irrefl _)
      | cons d t =>
          have hne : String.utf8EncodeChar d ≠ [] := by
            have hsize := d.utf8Size_pos
            rw [← String.length_utf8EncodeChar] at hsize
            exact List.ne_nil_of_length_pos hsize
          obtain ⟨byte, bytes, hbytes⟩ := List.exists_cons_of_ne_nil hne
          rw [List.flatMap_nil, List.flatMap_cons, hbytes]
          exact List.nil_lt_cons _ _
  | cons c s ih =>
      cases t with
      | nil => exact absurd h (List.not_lt_nil _)
      | cons d t =>
          rw [List.flatMap_cons, List.flatMap_cons]
          rcases List.cons_lt_cons_iff.mp h with hlt | ⟨rfl, hrest⟩
          · exact utf8EncodeChar_lt hlt _ _
          · rw [append_lt_append_left_iff]
            exact ih hrest

end Utf8

end Ferratomic.Lib
