import Ferratomic.Datom

/-!
# The Bloom filter of the entities

Seven bits of a bit array are set for every entity that goes in. A bit that is set stays set, so the
filter never denies an entity that went in (`EntityBloom.maybeContains_build`).
-/

namespace Ferratomic

open Lib

/-- `BITS_PER_ELEMENT` -/
def bitsPerElement : Nat := 10

/-- `NUM_HASHES` -/
def numHashes : Nat := 7

/-- The bits in words of 64, and their number. -/
structure EntityBloom where
  bits : List UInt64
  numBits : Nat
  numBits_eq : numBits = bits.length * 64
  nonempty : 0 < bits.length

/-- The word with one bit set. -/
def bitMask (bitIdx : Nat) : UInt64 :=
  1 <<< UInt64.ofNat (bitIdx % 64)

/-- `next_power_of_two`: the smallest power of two that is not below the number. -/
def nextPowerOfTwo (n : Nat) : Nat :=
  2 ^ Nat.clog 2 n

/-- A power of two that is large enough is a number of whole words. -/
theorem nextPowerOfTwo_words {n : Nat} (h : 64 ≤ n) :
    nextPowerOfTwo n = nextPowerOfTwo n / 64 * 64 ∧ 0 < nextPowerOfTwo n / 64 := by
  have hle : 2 ^ 6 ≤ nextPowerOfTwo n := h.trans (Nat.le_pow_clog Nat.one_lt_two n)
  have hdvd : 2 ^ 6 ∣ nextPowerOfTwo n :=
    Nat.pow_dvd_pow 2 ((Nat.pow_le_pow_iff_right Nat.one_lt_two).mp hle)
  omega

namespace EntityBloom

/-- `hash_pair` -/
def hashPair (eid : EntityId) : UInt64 × UInt64 :=
  (UInt64.ofNat (leNat (eid.val.take 8)), UInt64.ofNat (leNat ((eid.val.drop 8).take 8)) ||| 1)

/-- The bit of a hash function; the sum and the product wrap around. -/
def bitIdx (bloom : EntityBloom) (eid : EntityId) (i : Nat) : Fin bloom.numBits :=
  ⟨((hashPair eid).1 + UInt64.ofNat i * (hashPair eid).2).toNat % bloom.numBits,
    Nat.mod_lt _ (by have := bloom.numBits_eq; have := bloom.nonempty; omega)⟩

/-- The word of a bit. -/
theorem word_lt {bloom : EntityBloom} (bit : Fin bloom.numBits) :
    bit.val / 64 < bloom.bits.length := by
  have hbit := bit.isLt
  have hlength := bloom.numBits_eq
  omega

/-- Set a bit. -/
def setBit (bloom : EntityBloom) (bit : Fin bloom.numBits) : EntityBloom :=
  { bloom with
    bits := bloom.bits.set (bit.val / 64) (bloom.bits.get ⟨_, word_lt bit⟩ ||| bitMask bit.val)
    numBits_eq := by rw [List.length_set]; exact bloom.numBits_eq
    nonempty := by rw [List.length_set]; exact bloom.nonempty }

/-- A bit is not set. -/
def isClear (bloom : EntityBloom) (bit : Fin bloom.numBits) : Bool :=
  bloom.bits.get ⟨_, word_lt bit⟩ &&& bitMask bit.val = 0

/-- The bits of an entity are set. -/
def insert (bloom : EntityBloom) (eid : EntityId) : EntityBloom :=
  (List.range numHashes).foldl (fun bloom i => bloom.setBit (bloom.bitIdx eid i)) bloom

/-- `EntityBloom::build` -/
def build (entityIds : List EntityId) : EntityBloom :=
  let numBitsRaw := max (entityIds.length * bitsPerElement) 64
  let numBits := nextPowerOfTwo numBitsRaw
  let numWords := numBits / 64
  let empty : EntityBloom :=
    { bits := List.replicate numWords 0
      numBits := numBits
      numBits_eq := by
        rw [List.length_replicate]
        exact (nextPowerOfTwo_words (Nat.le_max_right _ 64)).1
      nonempty := by
        rw [List.length_replicate]
        exact (nextPowerOfTwo_words (Nat.le_max_right _ 64)).2 }
  entityIds.foldl insert empty

/-- `maybe_contains` -/
def maybeContains (bloom : EntityBloom) (eid : EntityId) : Bool :=
  (List.range numHashes).all fun i => !bloom.isClear (bloom.bitIdx eid i)

section Spec

/-- A mask has a bit set. -/
theorem bitMask_ne_zero (bit : Nat) : bitMask bit ≠ 0 := by
  intro h
  have hlt : bit % 64 < 64 := Nat.mod_lt _ (by decide)
  have htoNat := congrArg UInt64.toNat h
  rw [bitMask, UInt64.toNat_shiftLeft, UInt64.toNat_ofNat',
    Nat.mod_eq_of_lt (hlt.trans (by decide)), Nat.mod_eq_of_lt hlt, UInt64.toNat_one,
    Nat.one_shiftLeft, Nat.mod_eq_of_lt (Nat.pow_lt_pow_right Nat.one_lt_two hlt)] at htoNat
  exact (Nat.two_pow_pos _).ne' htoNat

/-- Adding bits to a word clears none. -/
theorem or_and_eq_zero {word bits mask : UInt64} (h : (word ||| bits) &&& mask = 0) :
    word &&& mask = 0 ∧ bits &&& mask = 0 := by
  have htoNat := congrArg UInt64.toNat h
  rw [UInt64.toNat_and, UInt64.toNat_or, Nat.and_or_distrib_right, UInt64.toNat_zero,
    Nat.or_eq_zero_iff] at htoNat
  exact ⟨UInt64.toNat_inj.mp ((UInt64.toNat_and _ _).trans htoNat.1),
    UInt64.toNat_inj.mp ((UInt64.toNat_and _ _).trans htoNat.2)⟩

/-- The bit at a position is set. -/
def Has (bloom : EntityBloom) (bit : Nat) : Prop :=
  ∃ word, bloom.bits[bit / 64]? = some word ∧ word &&& bitMask bit ≠ 0

/-- A bit is not clear exactly when the filter has it. -/
theorem isClear_eq_false_iff {bloom : EntityBloom} {bit : Fin bloom.numBits} :
    bloom.isClear bit = false ↔ bloom.Has bit.val := by
  rw [isClear, decide_eq_false_iff_not]
  constructor
  · intro h
    exact ⟨_, List.getElem?_eq_getElem (word_lt bit), h⟩
  · rintro ⟨word, hword, h⟩
    obtain ⟨_, hget⟩ := List.getElem?_eq_some_iff.mp hword
    rwa [← hget] at h

/-- A bit is set once it was set. -/
theorem has_setBit_self (bloom : EntityBloom) (bit : Fin bloom.numBits) :
    (bloom.setBit bit).Has bit.val := by
  refine ⟨_, List.getElem?_set_self (word_lt bit), fun hzero => ?_⟩
  have hmask := (or_and_eq_zero hzero).2
  rw [UInt64.and_self] at hmask
  exact bitMask_ne_zero _ hmask

/-- A bit that is set stays set. -/
theorem Has.setBit {bloom : EntityBloom} {bit : Nat} (h : bloom.Has bit)
    (bit' : Fin bloom.numBits) :
    (bloom.setBit bit').Has bit := by
  obtain ⟨word, hword, hset⟩ := h
  by_cases heq : bit'.val / 64 = bit / 64
  · rw [← heq] at hword
    obtain ⟨hlt, hget⟩ := List.getElem?_eq_some_iff.mp hword
    have hnext : (bloom.setBit bit').bits[bit / 64]? = some (word ||| bitMask bit'.val) := by
      rw [← heq, ← hget]
      exact List.getElem?_set_self hlt
    exact ⟨_, hnext, fun hzero => hset (or_and_eq_zero hzero).1⟩
  · refine ⟨word, ?_, hset⟩
    rw [← hword]
    exact List.getElem?_set_ne heq

/-- Setting bits one after the other keeps those that are set and sets each of them. -/
theorem has_foldl_setBit {bloom : EntityBloom} (eid : EntityId) (hashes : List Nat) :
    (hashes.foldl (fun bloom i => bloom.setBit (bloom.bitIdx eid i)) bloom).numBits =
        bloom.numBits ∧
      ∀ bit, (bloom.Has bit ∨ ∃ i ∈ hashes, (bloom.bitIdx eid i).val = bit) →
        (hashes.foldl (fun bloom i => bloom.setBit (bloom.bitIdx eid i)) bloom).Has bit := by
  induction hashes generalizing bloom with
  | nil => exact ⟨rfl, fun bit h => h.resolve_right (by simp)⟩
  | cons i hashes ih =>
      obtain ⟨hnum, hhas⟩ := @ih (bloom.setBit (bloom.bitIdx eid i))
      refine ⟨hnum, fun bit h => hhas bit ?_⟩
      rcases h with hbit | ⟨j, hj, rfl⟩
      · exact .inl (hbit.setBit _)
      · rcases List.mem_cons.mp hj with rfl | hj
        · exact .inl (has_setBit_self bloom _)
        · exact .inr ⟨j, hj, rfl⟩

/-- The bits of an entity depend on the number of bits only. -/
theorem bitIdx_congr {a b : EntityBloom} (h : a.numBits = b.numBits) (eid : EntityId) (i : Nat) :
    (a.bitIdx eid i).val = (b.bitIdx eid i).val := by
  simp only [bitIdx, h]

/-- All bits of an entity are set. -/
def Contains (bloom : EntityBloom) (eid : EntityId) : Prop :=
  ∀ i < numHashes, bloom.Has (bloom.bitIdx eid i).val

/-- An inserted entity is contained. -/
theorem contains_insert_self (bloom : EntityBloom) (eid : EntityId) :
    (bloom.insert eid).Contains eid := by
  obtain ⟨hnum, hhas⟩ := @has_foldl_setBit bloom eid (List.range numHashes)
  intro i hi
  exact hhas _ (.inr ⟨i, List.mem_range.mpr hi, bitIdx_congr hnum.symm eid i⟩)

/-- An insertion keeps what the filter contains. -/
theorem Contains.insert {bloom : EntityBloom} {eid : EntityId} (h : bloom.Contains eid)
    (eid' : EntityId) : (bloom.insert eid').Contains eid := by
  obtain ⟨hnum, hhas⟩ := @has_foldl_setBit bloom eid' (List.range numHashes)
  intro i hi
  have hbit : ((bloom.insert eid').bitIdx eid i).val = _ := bitIdx_congr hnum eid i
  rw [hbit]
  exact hhas _ (.inl (h i hi))

/-- Every entity inserted, or contained before, is contained. -/
theorem contains_foldl_insert {bloom : EntityBloom} {eid : EntityId} {entityIds : List EntityId}
    (h : bloom.Contains eid ∨ eid ∈ entityIds) : (entityIds.foldl insert bloom).Contains eid := by
  induction entityIds generalizing bloom with
  | nil => exact h.resolve_right List.not_mem_nil
  | cons first rest ih =>
      refine ih ?_
      rcases h with hcontains | hmem
      · exact .inl (hcontains.insert first)
      · rcases List.mem_cons.mp hmem with rfl | hmem
        · exact .inl (contains_insert_self bloom _)
        · exact .inr hmem

/-- The filter does not deny an entity that went in. -/
theorem maybeContains_build {eid : EntityId} {entityIds : List EntityId} (h : eid ∈ entityIds) :
    (build entityIds).maybeContains eid = true := by
  have hcontains : (build entityIds).Contains eid := contains_foldl_insert (.inr h)
  rw [maybeContains, List.all_eq_true]
  intro i hi
  rw [Bool.not_eq_true', isClear_eq_false_iff]
  exact hcontains i (List.mem_range.mp hi)

end Spec

end EntityBloom

end Ferratomic
