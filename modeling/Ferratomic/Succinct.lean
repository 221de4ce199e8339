import Ferratomic.Lib.RankSelect
import Ferratomic.Lib.Codec

/-!
# Succinct bit vectors

Bits are packed into words of 64, and the number of set bits in front of every word is kept beside
them. `rank1` adds to it the set bits of a masked word, `select1` searches in it and clears lowest
bits of one word. `count_words` says what the table holds. The main theorem is `rank_select`: on
every packed sequence the two operations are the rank and the selection of set bits, and inverse to
each other.
-/

namespace Ferratomic

open Lib

section Model

/-- The largest `u64` and the largest `usize`. -/
def u64Max : Nat := 2 ^ 64 - 1

/-- The bit at a position, least significant bit of the first word first. -/
def wordBit (raw : List UInt64) (pos : Nat) : Bool :=
  match raw[pos / 64]? with
  | some word => word.toNat.testBit (pos % 64)
  | none => false

/-- `BitVec<u64, Lsb0>`: as many words as the bits need, with zeros after the end. -/
structure PackedBits where
  raw : List UInt64
  len : Nat
  len_le : len ≤ u64Max
  length_raw : raw.length = (len + 63) / 64
  tail : ∀ pos, len ≤ pos → wordBit raw pos = false

/-- `BitVec::get` -/
def PackedBits.get (bits : PackedBits) (pos : Nat) : Option Bool :=
  if pos < bits.len then some (wordBit bits.raw pos) else none

/-- `count_ones` -/
def countOnes (word : UInt64) : Nat :=
  Nat.count (fun bit => word.toNat.testBit bit = true) 64

/-- `trailing_zeros` -/
def trailingZeros (word : UInt64) : Nat :=
  (List.range 64).findIdx fun bit => word.toNat.testBit bit

/-- `select_in_word`: clear the lowest set bit so many times. -/
def selectInWord (word : UInt64) : Nat → Option Nat
  | 0 => if word = 0 then none else some (trailingZeros word)
  | k + 1 => if word = 0 then none else selectInWord (word &&& (word - 1)) k

/-- `SuccinctBitVec`: the bits, the number of set bits in front of each word and at the end, and
the number of all of them. -/
structure SuccinctBitVec where
  bits : PackedBits
  counts : List Nat
  onesCount : Nat
  length_counts : counts.length = bits.raw.length + 1

namespace SuccinctBitVec

/-- `saturating_add` of the set bits of a word -/
def addOnes (cumulative : Nat) (word : UInt64) : Nat :=
  min (cumulative + countOnes word) u64Max

/-- `from_bitvec` -/
def fromBitvec (bits : PackedBits) : SuccinctBitVec where
  bits := bits
  counts := bits.raw.scanl addOnes 0
  onesCount := bits.raw.foldl addOnes 0
  length_counts := List.length_scanl

/-- `len` -/
def len (sbv : SuccinctBitVec) : Nat :=
  sbv.bits.len

/-- `get` -/
def get (sbv : SuccinctBitVec) (pos : Nat) : Bool :=
  sbv.bits.get pos == some true

/-- `rank1` -/
def rank1 (sbv : SuccinctBitVec) (pos : Nat) : Nat :=
  if pos = 0 then 0
  else if h : sbv.bits.len ≤ pos then sbv.onesCount
  else
    have hraw := sbv.bits.length_raw
    have hcounts := sbv.length_counts
    let wordIdx := pos / 64
    let bitIdx := pos % 64
    let base := sbv.counts[wordIdx]
    let filled :=
      if bitIdx = 0 then 0
      else countOnes (sbv.bits.raw[wordIdx] &&& (((1 : UInt64) <<< UInt64.ofNat bitIdx) - 1))
    base + filled

/-- The loop of `select1`: the first word up to whose end there are as many set bits. The indices
that the search reads lie below its upper end. -/
def searchWord (sbv : SuccinctBitVec) (target : Nat) : Nat :=
  let words := sbv.counts.length - 1
  lowerBound (fun mid => sbv.counts.getD (mid + 1) 0 < target) 0 words

/-- `select1` -/
def select1 (sbv : SuccinctBitVec) (k : Nat) : Option Nat :=
  if sbv.onesCount ≤ k then none
  else do
    let target := k + 1
    let lo := sbv.searchWord target
    let bitsBefore := sbv.counts.getD lo 0
    let remaining := k - bitsBefore
    -- an index past the last word would panic
    let word ← sbv.bits.raw[lo]?
    (selectInWord word remaining).map fun bit => lo * 64 + bit

end SuccinctBitVec

end Model

section Words

/-- A word has no bit from position 64 on. -/
theorem testBit_of_le {word : UInt64} {bit : Nat} (h : 64 ≤ bit) : word.toNat.testBit bit = false :=
  Nat.testBit_lt_two_pow (lt_of_lt_of_le word.toNat_lt (Nat.pow_le_pow_right (by omega) h))

/-- A word with a set bit is not zero. -/
theorem ne_zero_of_testBit {word : UInt64} {bit : Nat} (h : word.toNat.testBit bit = true) :
    word ≠ 0 := by
  intro hzero
  rw [hzero, UInt64.toNat_zero, Nat.zero_testBit] at h
  cases h

/-- The mask of the bits below a position. -/
theorem toNat_mask {bit : Nat} (h : bit < 64) :
    (((1 : UInt64) <<< UInt64.ofNat bit) - 1).toNat = 2 ^ bit - 1 := by
  have hpow : 2 ^ bit < 2 ^ 64 := Nat.pow_lt_pow_right (by omega) h
  have hbit : (UInt64.ofNat bit).toNat = bit := UInt64.toNat_ofNat_of_lt' (by
    show bit < 2 ^ 64
    omega)
  have hshift : ((1 : UInt64) <<< UInt64.ofNat bit).toNat = 2 ^ bit := by
    rw [UInt64.toNat_shiftLeft, hbit, Nat.mod_eq_of_lt h]
    show 1 <<< bit % 2 ^ 64 = 2 ^ bit
    rw [Nat.one_shiftLeft, Nat.mod_eq_of_lt hpow]
  have hone : (1 : UInt64) ≤ (1 : UInt64) <<< UInt64.ofNat bit := by
    rw [UInt64.le_iff_toNat_le, hshift]
    exact Nat.one_le_two_pow
  rw [UInt64.toNat_sub_of_le _ _ hone, hshift]
  rfl

/-- The set bits of a masked word. -/
theorem countOnes_mask (word : UInt64) {bit : Nat} (h : bit < 64) :
    countOnes (word &&& (((1 : UInt64) <<< UInt64.ofNat bit) - 1)) =
      Nat.count (fun i => word.toNat.testBit i = true) bit := by
  unfold countOnes
  rw [UInt64.toNat_and, toNat_mask h, ← count_mask h.le]
  refine count_congr fun i _ => ?_
  rw [Nat.testBit_and, Nat.testBit_two_pow_sub_one, Bool.and_eq_true, decide_eq_true_eq]

/-- The bit of a given rank is found. -/
theorem selectInWord_eq {word : UInt64} {k bit : Nat} (hset : word.toNat.testBit bit = true)
    (hcount : Nat.count (fun i => word.toNat.testBit i = true) bit = k) :
    selectInWord word k = some bit := by
  have hbit : bit < 64 := by
    by_contra hpast
    rw [testBit_of_le (by omega)] at hset
    cases hset
  -- every step clears the lowest bit, which takes one off the rank
  induction k generalizing word with
  | zero =>
      have hne := ne_zero_of_testBit hset
      have hbelow := Nat.count_iff_forall_not.mp hcount
      have hfirst : trailingZeros word = bit := by
        unfold trailingZeros
        refine (List.findIdx_eq (by rw [List.length_range]; exact hbit)).mpr ⟨?_, ?_⟩
        · rw [List.getElem_range]
          exact hset
        · intro j hj
          rw [List.getElem_range]
          exact Bool.eq_false_iff.mpr (hbelow j hj)
      unfold selectInWord
      rw [if_neg hne, hfirst]
  | succ k ih =>
      have hne := ne_zero_of_testBit hset
      have hpos : word.toNat ≠ 0 := fun hzero => hne (UInt64.toNat_inj.mp hzero)
      have hone : (1 : UInt64) ≤ word := by
        rw [UInt64.le_iff_toNat_le]
        exact Nat.one_le_iff_ne_zero.mpr hpos
      have hcleared : (word &&& (word - 1)).toNat = word.toNat &&& (word.toNat - 1) := by
        rw [UInt64.toNat_and, UInt64.toNat_sub_of_le _ _ hone]
        rfl
      obtain ⟨lowest, hlowest, hbelow, hclear⟩ := exists_lowest hpos
      -- the bit of rank `k + 1` is not the lowest one
      have hlow : lowest < bit := by
        by_contra hle
        have hnone : Nat.count (fun i => word.toNat.testBit i = true) bit = 0 :=
          Nat.count_iff_forall_not.mpr fun i hi => by
            rw [hbelow i (by omega)]
            exact Bool.false_ne_true
        omega
      have hrank := @count_clear (fun i => word.toNat.testBit i = true) _ _ _ hlow hlowest
      unfold selectInWord
      rw [if_neg hne]
      refine ih ?_ ?_
      · rw [hcleared]
        exact (hclear bit).mpr ⟨hset, Nat.ne_of_gt hlow⟩
      · simp only [hcleared, hclear]
        omega

end Words

namespace PackedBits

variable (bits : PackedBits)

/-- The bit at a position is set. -/
abbrev IsSet (pos : Nat) : Prop :=
  wordBit bits.raw pos = true

variable {bits}

/-- Only positions of the sequence hold set bits. -/
theorem get_eq_some_true {pos : Nat} : bits.get pos = some true ↔ bits.IsSet pos := by
  unfold get
  split
  case isTrue => exact ⟨Option.some.inj, congrArg some⟩
  case isFalse hpast =>
      refine iff_of_false nofun ?_
      rw [PackedBits.IsSet, bits.tail pos (by omega)]
      exact Bool.false_ne_true

/-- A set bit lies within the length. -/
theorem lt_len {pos : Nat} (h : bits.IsSet pos) : pos < bits.len := by
  by_contra hpast
  rw [PackedBits.IsSet, bits.tail pos (by omega)] at h
  cases h

/-- The words hold no set bits beyond the end. -/
theorem count_of_len_le {n : Nat} (h : bits.len ≤ n) :
    Nat.count bits.IsSet n = Nat.count bits.IsSet bits.len := by
  rw [← count_mask h]
  exact count_congr fun pos _ => (and_iff_left_of_imp lt_len).symm

/-- The count of set bits fits 64 bits. -/
theorem count_le_max (bits : PackedBits) (n : Nat) : Nat.count bits.IsSet n ≤ u64Max := by
  obtain hle | hlt := le_or_gt n bits.len
  · exact le_trans (Nat.count_le _) (le_trans hle bits.len_le)
  · rw [count_of_len_le hlt.le]
    exact le_trans (Nat.count_le _) bits.len_le

/-- The bits of the sequence from a word on are the bits of the word. -/
theorem count_word {index n : Nat} {word : UInt64} (hword : bits.raw[index]? = some word)
    (h : n ≤ 64) : Nat.count (fun bit => bits.IsSet (64 * index + bit)) n =
      Nat.count (fun bit => word.toNat.testBit bit = true) n := by
  refine count_congr fun bit hbit => ?_
  have hindex : (64 * index + bit) / 64 = index := by omega
  have hplace : (64 * index + bit) % 64 = bit := by omega
  unfold PackedBits.IsSet wordBit
  rw [hindex, hplace, hword]

/-- A word adds its set bits. -/
theorem count_succ_word {index : Nat} {word : UInt64} (hword : bits.raw[index]? = some word) :
    Nat.count bits.IsSet (64 * (index + 1)) =
      Nat.count bits.IsSet (64 * index) + countOnes word := by
  rw [Nat.mul_succ, Nat.count_add, count_word hword (Nat.le_refl 64)]
  rfl

end PackedBits

namespace SuccinctBitVec

variable {bits : PackedBits}

/-- The table holds the number of set bits in front of every word, and no sum saturates. -/
theorem count_words {index : Nat} (h : index ≤ bits.raw.length) :
    (fromBitvec bits).counts[index]? = some (Nat.count bits.IsSet (64 * index)) := by
  show (bits.raw.scanl addOnes 0)[index]? = _
  induction index with
  | zero => rw [List.getElem?_scanl_zero, Nat.mul_zero, Nat.count_zero]
  | succ index ih =>
      have hword : bits.raw[index]? = some bits.raw[index] := List.getElem?_eq_getElem h
      have hcount := PackedBits.count_succ_word hword
      have hmax := PackedBits.count_le_max bits (64 * (index + 1))
      rw [List.getElem?_succ_scanl, ih (by omega), hword, hcount]
      rw [hcount] at hmax
      exact congrArg some (min_eq_left hmax)

/-- The count of ones is that of the set bits. -/
theorem onesCount_eq : (fromBitvec bits).onesCount = Nat.count bits.IsSet bits.len := by
  have hlast : (bits.raw.scanl addOnes 0).getLast? = some (bits.raw.foldl addOnes 0) :=
    List.getLast?_scanl
  have hcount : (bits.raw.scanl addOnes 0)[bits.raw.length]? =
      some (Nat.count bits.IsSet (64 * bits.raw.length)) := count_words (Nat.le_refl _)
  have hraw := bits.length_raw
  rw [List.getLast?_eq_getElem?, List.length_scanl, Nat.add_sub_cancel, hcount] at hlast
  rw [PackedBits.count_of_len_le (by omega)] at hlast
  exact (Option.some.inj hlast).symm

/-- A bit is read as set exactly when it is. -/
theorem get_eq_true {pos : Nat} : (fromBitvec bits).get pos = true ↔ bits.IsSet pos := by
  rw [← PackedBits.get_eq_some_true]
  exact beq_iff_eq

/-- `rank1` counts the set bits in front of a position. -/
theorem rank1_eq (pos : Nat) :
    (fromBitvec bits).rank1 pos = Nat.count bits.IsSet (min pos bits.len) := by
  unfold rank1
  split
  case isTrue hzero => rw [hzero, Nat.zero_min, Nat.count_zero]
  case isFalse =>
      split
      case isTrue hpast =>
          have hlen : bits.len ≤ pos := hpast
          rw [Nat.min_eq_right hlen]
          exact onesCount_eq
      case isFalse hpos =>
          -- the table counts up to the word of the position, the mask from there on
          have hraw := bits.length_raw
          have hlt : pos < bits.len := Nat.lt_of_not_le hpos
          have hindex : pos / 64 < bits.raw.length := by omega
          have hword : bits.raw[pos / 64]? = some bits.raw[pos / 64] :=
            List.getElem?_eq_getElem hindex
          have hsplit : pos = 64 * (pos / 64) + pos % 64 := (Nat.div_add_mod pos 64).symm
          have hcounts : pos / 64 < (fromBitvec bits).counts.length := by
            rw [(fromBitvec bits).length_counts]
            exact Nat.lt_succ_of_lt hindex
          have hbase :
              (fromBitvec bits).counts[pos / 64] = Nat.count bits.IsSet (64 * (pos / 64)) :=
            (List.getElem_eq_iff _).mpr (count_words hindex.le)
          have hfilled : (if pos % 64 = 0 then 0 else countOnes (bits.raw[pos / 64] &&&
              (((1 : UInt64) <<< UInt64.ofNat (pos % 64)) - 1))) =
              Nat.count (fun bit => bits.raw[pos / 64].toNat.testBit bit = true) (pos % 64) := by
            split
            case isTrue hzero => rw [hzero, Nat.count_zero]
            case isFalse => exact countOnes_mask _ (by omega)
          rw [Nat.min_eq_left hlt.le]
          conv_rhs => rw [hsplit]
          rw [Nat.count_add, PackedBits.count_word hword (by omega)]
          exact congrArg₂ (· + ·) hbase hfilled

/-- Each sampled count is that of the set bits before its word. -/
theorem getD_counts {index : Nat} (h : index ≤ bits.raw.length) :
    (fromBitvec bits).counts.getD index 0 = Nat.count bits.IsSet (64 * index) := by
  rw [List.getD_eq_getElem?_getD, count_words h, Option.getD_some]

/-- The search stops at a word with as many set bits in front of its end, and with fewer in front
of its beginning. -/
theorem searchWord_spec {k : Nat} (h : k < (fromBitvec bits).onesCount) :
    (fromBitvec bits).searchWord (k + 1) < bits.raw.length ∧
      Nat.count bits.IsSet (64 * (fromBitvec bits).searchWord (k + 1)) ≤ k ∧
      k < Nat.count bits.IsSet (64 * ((fromBitvec bits).searchWord (k + 1) + 1)) := by
  have hraw := bits.length_raw
  have hwords : (fromBitvec bits).counts.length - 1 = bits.raw.length := by
    rw [(fromBitvec bits).length_counts]
    rfl
  unfold searchWord
  rw [hwords]
  dsimp only
  obtain ⟨-, hhigh, hleft, hright⟩ := lowerBound_spec
    (fun mid => decide ((fromBitvec bits).counts.getD (mid + 1) 0 < k + 1))
    (Nat.zero_le bits.raw.length)
  generalize lowerBound (fun mid => decide ((fromBitvec bits).counts.getD (mid + 1) 0 < k + 1)) 0
    bits.raw.length = lo at hhigh hleft hright ⊢
  have hbefore : Nat.count bits.IsSet (64 * lo) ≤ k := by
    cases lo with
    | zero =>
        rw [Nat.mul_zero, Nat.count_zero]
        exact Nat.zero_le k
    | succ lo =>
        have hbelow := hleft.resolve_left (Nat.succ_ne_zero lo)
        rw [Nat.add_sub_cancel, getD_counts hhigh, decide_eq_true_eq] at hbelow
        omega
  have hlo : lo < bits.raw.length := by
    obtain hlt | hend := Nat.lt_or_eq_of_le hhigh
    · exact hlt
    · -- all set bits lie in front of the end of the last word
      rw [hend, PackedBits.count_of_len_le (by omega), ← onesCount_eq] at hbefore
      omega
  have hnot := hright.resolve_left (Nat.ne_of_lt hlo)
  rw [getD_counts (show lo + 1 ≤ bits.raw.length from hlo), decide_eq_false_iff_not] at hnot
  exact ⟨hlo, hbefore, by omega⟩

/-- `select1` finds the set bit of a rank. -/
theorem select1_eq_some {pos : Nat} (hset : bits.IsSet pos) :
    (fromBitvec bits).select1 (Nat.count bits.IsSet pos) = some pos := by
  have hones : Nat.count bits.IsSet pos < (fromBitvec bits).onesCount := by
    rw [onesCount_eq]
    exact Nat.count_strict_mono hset (PackedBits.lt_len hset)
  obtain ⟨hlo, hbefore, hafter⟩ := searchWord_spec hones
  unfold select1
  rw [if_neg (Nat.not_le_of_lt hones)]
  dsimp only
  generalize (fromBitvec bits).searchWord (Nat.count bits.IsSet pos + 1) =
    lo at hlo hbefore hafter ⊢
  -- the position lies in the word that was found
  have hfrom : 64 * lo ≤ pos := by
    by_contra hless
    have hmore := Nat.count_strict_mono (p := bits.IsSet) hset (show pos < 64 * lo by omega)
    omega
  have hto : pos < 64 * (lo + 1) := Nat.lt_of_count_lt_count hafter
  obtain ⟨bit, rfl⟩ := Nat.exists_eq_add_of_le hfrom
  have hindex : (64 * lo + bit) / 64 = lo := by omega
  have hplace : (64 * lo + bit) % 64 = bit := by omega
  have hword : bits.raw[lo]? = some bits.raw[lo] := List.getElem?_eq_getElem hlo
  have hbit : bits.raw[lo].toNat.testBit bit = true := by
    unfold PackedBits.IsSet wordBit at hset
    rw [hindex, hplace, hword] at hset
    exact hset
  have hcount : Nat.count (fun i => bits.raw[lo].toNat.testBit i = true) bit =
      Nat.count bits.IsSet (64 * lo + bit) - (fromBitvec bits).counts.getD lo 0 := by
    rw [getD_counts hlo.le, Nat.count_add, Nat.add_sub_cancel_left,
      PackedBits.count_word hword (by omega)]
  show (bits.raw[lo]? >>= _) = _
  rw [hword]
  show (selectInWord bits.raw[lo] _).map _ = _
  rw [selectInWord_eq hbit hcount, Nat.mul_comm 64 lo]
  rfl

/-- `select1` finds nothing for a rank that no set bit has. -/
theorem select1_eq_none {k : Nat} (h : (fromBitvec bits).onesCount ≤ k) :
    (fromBitvec bits).select1 k = none := by
  unfold select1
  rw [if_pos h]

/-- A rank below the number of set bits is selected. -/
theorem exists_select1 {k : Nat} (h : k < (fromBitvec bits).onesCount) :
    ∃ pos, (fromBitvec bits).select1 k = some pos ∧ bits.IsSet pos ∧
    Nat.count bits.IsSet pos = k := by
  rw [onesCount_eq] at h
  obtain ⟨pos, -, hset, hcount⟩ := exists_set_of_lt_count h
  refine ⟨pos, ?_, hset, hcount⟩
  rw [← hcount]
  exact select1_eq_some hset

/-- What the operations answer about the packed bits. -/
structure RankSelect (bits : PackedBits) (sbv : SuccinctBitVec) : Prop where
  rank : ∀ pos, sbv.rank1 pos = Nat.count (fun i => bits.get i = some true) (min pos bits.len)
  ones : sbv.onesCount = Nat.count (fun i => bits.get i = some true) bits.len
  select : ∀ k < sbv.onesCount, ∃ pos < bits.len, sbv.select1 k = some pos ∧
    bits.get pos = some true ∧ Nat.count (fun i => bits.get i = some true) pos = k
  select_none : ∀ k, sbv.onesCount ≤ k → sbv.select1 k = none
  rank_of_select : ∀ k pos, sbv.select1 k = some pos → sbv.rank1 pos = k
  select_of_rank : ∀ pos, sbv.get pos = true → sbv.select1 (sbv.rank1 pos) = some pos

/-- On every packed sequence the operations are the rank and the selection of its set bits. -/
theorem rank_select (bits : PackedBits) : RankSelect bits (fromBitvec bits) where
  rank pos := by
    simp only [PackedBits.get_eq_some_true]
    exact rank1_eq pos
  ones := by
    simp only [PackedBits.get_eq_some_true]
    exact onesCount_eq
  select k h := by
    simp only [PackedBits.get_eq_some_true]
    obtain ⟨pos, hselect, hset, hcount⟩ := exists_select1 h
    exact ⟨pos, PackedBits.lt_len hset, hselect, hset, hcount⟩
  select_none k h := select1_eq_none h
  rank_of_select k pos hselect := by
    by_cases h : k < (fromBitvec bits).onesCount
    · obtain ⟨found, hfound, hset, hcount⟩ := exists_select1 h
      obtain rfl : found = pos := Option.some.inj (hfound.symm.trans hselect)
      rw [rank1_eq, Nat.min_eq_left (PackedBits.lt_len hset).le]
      exact hcount
    · rw [select1_eq_none (Nat.le_of_not_lt h)] at hselect
      cases hselect
  select_of_rank pos hget := by
    have hset := get_eq_true.mp hget
    rw [rank1_eq, Nat.min_eq_left (PackedBits.lt_len hset).le]
    exact select1_eq_some hset

end SuccinctBitVec

section Packing

open Codec

/-- The bits of the number are those of the sequence. -/
theorem testBit_bitsNat (sequence : List Bool) (pos : Nat) :
    (bitsNat sequence).testBit pos = sequence[pos]?.getD false := by
  induction sequence generalizing pos with
  | nil => rw [bitsNat, Nat.zero_testBit, List.getElem?_nil, Option.getD_none]
  | cons bit rest ih =>
      have hbit := bit.toNat_lt
      unfold bitsNat
      cases pos with
      | zero =>
          have hmod : (bit.toNat + 2 * bitsNat rest) % 2 = bit.toNat := by omega
          rw [Nat.testBit_zero, hmod]
          cases bit <;> rfl
      | succ pos =>
          have hdiv : (bit.toNat + 2 * bitsNat rest) / 2 = bitsNat rest := by omega
          rw [Nat.testBit_succ, hdiv, ih pos, List.getElem?_cons_succ]

/-- As many words are packed as were asked for. -/
theorem length_packWords (width count : Nat) (sequence : List Bool) :
    (packWords width count sequence).length = count := by
  induction count generalizing sequence with
  | zero => rfl
  | succ count ih => rw [packWords, List.length_cons, ih]

/-- Each word packs its own part of the sequence. -/
theorem getElem?_packWords {width count index : Nat} (sequence : List Bool) (h : index < count) :
    (packWords width count sequence)[index]? =
      some (bitsNat ((sequence.drop (width * index)).take width)) := by
  induction count generalizing sequence index with
  | zero => omega
  | succ count ih =>
      unfold packWords
      cases index with
      | zero => rw [List.getElem?_cons_zero, Nat.mul_zero, List.drop_zero]
      | succ index =>
          rw [List.getElem?_cons_succ, ih _ (by omega), List.drop_drop, Nat.mul_succ,
            Nat.add_comm width]

/-- A sequence in words from its first bit on, with zeros after the end. -/
def packedRaw (sequence : List Bool) : List UInt64 :=
  (packWords 64 ((sequence.length + 63) / 64) sequence).map UInt64.ofNat

/-- The packed words hold the bits of the sequence. -/
theorem wordBit_packedRaw (sequence : List Bool) (pos : Nat) :
    wordBit (packedRaw sequence) pos = sequence[pos]?.getD false := by
  unfold wordBit packedRaw
  rw [List.getElem?_map]
  by_cases hindex : pos / 64 < (sequence.length + 63) / 64
  · have hword := @getElem?_packWords 64 _ _ sequence hindex
    have hlt := lt_of_mem_packWords (List.mem_of_getElem? hword)
    have hplace : 64 * (pos / 64) + pos % 64 = pos := Nat.div_add_mod pos 64
    have hmod : pos % 64 < 64 := Nat.mod_lt pos (by omega)
    rw [hword, Option.map_some]
    show (UInt64.ofNat _).toNat.testBit (pos % 64) = _
    rw [UInt64.toNat_ofNat_of_lt' hlt, testBit_bitsNat, List.getElem?_take_of_lt hmod,
      List.getElem?_drop, hplace]
  · rw [List.getElem?_eq_none (by rw [length_packWords]; omega),
      List.getElem?_eq_none (by omega)]
    rfl

/-- Every sequence of bits can be packed. -/
def PackedBits.pack (sequence : List Bool) (h : sequence.length ≤ u64Max) : PackedBits where
  raw := packedRaw sequence
  len := sequence.length
  len_le := h
  length_raw := by
    unfold packedRaw
    rw [List.length_map, length_packWords]
  tail pos hpos := by
    rw [wordBit_packedRaw, List.getElem?_eq_none hpos]
    rfl

/-- The bits that were packed are read back. -/
theorem PackedBits.get_pack (sequence : List Bool) (h : sequence.length ≤ u64Max) (pos : Nat) :
    (pack sequence h).get pos = sequence[pos]? := by
  unfold get
  show (if pos < sequence.length then some (wordBit (packedRaw sequence) pos) else none) = _
  rw [wordBit_packedRaw]
  split
  case isTrue hpos => rw [List.getElem?_eq_getElem hpos, Option.getD_some]
  case isFalse hpast => rw [List.getElem?_eq_none (by omega)]

end Packing

end Ferratomic
