import Ferratomic.Positional

/-!
# Fingerprints as sums

`xor_hash_into` works on the two halves of a hash as 128-bit words; `xorHashInto_eq` says that this
is the exclusive or of the bytes, in either byte order of the target. Hashes under exclusive or are
a commutative group in which every element is its own inverse. In it a fingerprint is the sum of the
content hashes of its datoms, so it does not depend on their order (`computeFingerprint_sort`).
-/

namespace Ferratomic

open Lib

section Words

/-- The byte order of the words of a target. -/
inductive Endian where
  | little
  | big
  deriving DecidableEq, Repr

/-- `u128::from_ne_bytes` -/
def Endian.fromNeBytes : Endian → Bytes → Nat
  | little, bytes => leNat bytes
  | big, bytes => leNat bytes.reverse

/-- `u128::to_ne_bytes` -/
def Endian.toNeBytes : Endian → Nat → Bytes
  | little, word => leBytes 16 word
  | big, word => (leBytes 16 word).reverse

/-- `split_u128_ref`: the two halves of a hash. -/
def splitU128 (target : Endian) (hash : Hash) : Nat × Nat :=
  (target.fromNeBytes (hash.val.take 16), target.fromNeBytes (hash.val.drop 16))

/-- A word has 16 bytes in either order. -/
theorem Endian.length_toNeBytes (target : Endian) (word : Nat) :
    (target.toNeBytes word).length = 16 := by
  cases target <;> simp [toNeBytes]

/-- `xor_hash_into`, on the halves of the digests. -/
def xorHashInto (target : Endian) (fp hash : Hash) : Hash :=
  let (fpLo, fpHi) := splitU128 target fp
  let (hLo, hHi) := splitU128 target hash
  ⟨target.toNeBytes (fpLo ^^^ hLo) ++ target.toNeBytes (fpHi ^^^ hHi), by
    rw [List.length_append, target.length_toNeBytes, target.length_toNeBytes]⟩

/-- Little-endian numbers are combined byte by byte. -/
theorem leNat_zipWith_xor {a b : Bytes} (h : a.length = b.length) :
    leNat (List.zipWith (· ^^^ ·) a b) = leNat a ^^^ leNat b := by
  induction a generalizing b with
  | nil => cases b with
    | nil => rfl
    | cons y b => cases h
  | cons x a ih =>
      cases b with
      | nil => cases h
      | cons y b =>
          have hx : x.toNat < 256 := x.toNat_lt
          have hy : y.toNat < 256 := y.toNat_lt
          have hlow : (x.toNat + 256 * leNat a ^^^ y.toNat + 256 * leNat b) % 2 ^ 8 =
              x.toNat ^^^ y.toNat := by
            rw [Nat.xor_mod_two_pow]
            congr 1 <;> omega
          have hhigh : (x.toNat + 256 * leNat a ^^^ y.toNat + 256 * leNat b) / 2 ^ 8 =
              leNat a ^^^ leNat b := by
            rw [Nat.xor_div_two_pow]
            congr 1 <;> omega
          rw [List.zipWith_cons_cons, leNat, leNat, leNat, ih (Nat.succ.inj h), UInt8.toNat_xor,
            ← hlow, ← hhigh]
          exact Nat.mod_add_div _ (2 ^ 8)

/-- Words are combined byte by byte, in either byte order. -/
theorem Endian.toNeBytes_xor (target : Endian) {a b : Bytes} (ha : a.length = 16)
    (hb : b.length = 16) :
    target.toNeBytes (target.fromNeBytes a ^^^ target.fromNeBytes b) =
      List.zipWith (· ^^^ ·) a b := by
  have hwords : ∀ {a b : Bytes}, a.length = 16 → b.length = 16 →
      leBytes 16 (leNat a ^^^ leNat b) = List.zipWith (· ^^^ ·) a b := by
    intro a b ha hb
    have hlength : (List.zipWith (· ^^^ ·) a b).length = 16 := by
      rw [List.length_zipWith, ha, hb, Nat.min_self]
    rw [← leNat_zipWith_xor (ha.trans hb.symm), ← hlength, leBytes_leNat]
  cases target with
  | little => exact hwords ha hb
  | big =>
      have hreversed := hwords (a := a.reverse) (b := b.reverse) (by simpa using ha)
        (by simpa using hb)
      rw [toNeBytes, fromNeBytes, fromNeBytes, hreversed,
        ← List.reverse_zipWith (ha.trans hb.symm), List.reverse_reverse]

/-- The exclusive or of the halves is that of the bytes. -/
theorem xorHashInto_eq (target : Endian) (fp hash : Hash) :
    xorHashInto target fp hash = xorHash fp hash := by
  have htake : ∀ hash : Hash, (hash.val.take 16).length = 16 := fun hash => by
    rw [List.length_take, hash.property]
    rfl
  have hdrop : ∀ hash : Hash, (hash.val.drop 16).length = 16 := fun hash => by
    rw [List.length_drop, hash.property]
  refine Subtype.ext ?_
  show target.toNeBytes (target.fromNeBytes _ ^^^ target.fromNeBytes _) ++
    target.toNeBytes (target.fromNeBytes _ ^^^ target.fromNeBytes _) = _
  rw [target.toNeBytes_xor (htake fp) (htake hash),
    target.toNeBytes_xor (hdrop fp) (hdrop hash),
    ← List.zipWith_append ((htake fp).trans (htake hash).symm), List.take_append_drop,
    List.take_append_drop]
  rfl

end Words

/-- XOR commutes. -/
theorem xorHash_comm (a b : Hash) : xorHash a b = xorHash b a :=
  Subtype.ext (List.zipWith_comm_of_comm fun x y => UInt8.xor_comm x y)

/-- XOR is associative. -/
theorem xorHash_assoc (a b c : Hash) : xorHash (xorHash a b) c = xorHash a (xorHash b c) := by
  refine Subtype.ext (List.ext_getElem ?_ fun i hi hi' => ?_)
  · rw [(xorHash _ c).property, (xorHash a _).property]
  · simp only [xorHash, List.getElem_zipWith, UInt8.xor_assoc]

/-- The zero hash is neutral. -/
theorem zero_xorHash (a : Hash) : xorHash zeroHash a = a := by
  refine Subtype.ext (List.ext_getElem ?_ fun i hi hi' => ?_)
  · rw [(xorHash zeroHash a).property, a.property]
  · simp only [xorHash, zeroHash, List.getElem_zipWith, List.getElem_replicate, UInt8.zero_xor]

/-- A hash cancels itself. -/
theorem xorHash_self (a : Hash) : xorHash a a = zeroHash := by
  refine Subtype.ext (List.ext_getElem ?_ fun i hi hi' => ?_)
  · rw [(xorHash a a).property, zeroHash.property]
  · simp only [xorHash, zeroHash, List.getElem_zipWith, List.getElem_replicate, UInt8.xor_self]

instance : Add Hash := ⟨xorHash⟩

instance : Zero Hash := ⟨zeroHash⟩

instance : Neg Hash := ⟨id⟩

/-- Hashes under exclusive or; each is its own inverse. -/
instance : AddCommGroup Hash where
  add_assoc := xorHash_assoc
  zero_add := zero_xorHash
  add_zero a := (xorHash_comm a zeroHash).trans (zero_xorHash a)
  neg_add_cancel := xorHash_self
  add_comm := xorHash_comm
  nsmul := nsmulRec
  zsmul := zsmulRec

/-- As an addition, a hash cancels itself. -/
theorem hash_add_self (a : Hash) : a + a = 0 :=
  xorHash_self a

/-- What a loop of exclusive ors accumulates. -/
theorem foldl_xorHash {α : Type} (f : α → Hash) (items : List α) (acc : Hash) :
    items.foldl (fun acc a => xorHash acc (f a)) acc = acc + (items.map f).sum := by
  induction items generalizing acc with
  | nil => exact (add_zero acc).symm
  | cons first rest ih =>
      rw [List.foldl_cons, ih, List.map_cons, List.sum_cons, ← add_assoc]
      rfl

/-- The fingerprint of a canonical array is the sum over its set of datoms. -/
theorem computeFingerprint_sort [Blake3] (datoms : Finset Datom) :
    computeFingerprint (datoms.sort (· ≤ ·)) = ∑ d ∈ datoms, d.contentHash := by
  have hsum := List.sum_toFinset Datom.contentHash (Finset.sort_nodup datoms (· ≤ ·))
  rw [Finset.sort_toFinset] at hsum
  rw [computeFingerprint, foldl_xorHash, hsum]
  exact zero_add _

/-- The fingerprint of an ascending array is the sum over its set of datoms. -/
theorem computeFingerprint_toFinset [Blake3] {canonical : List Datom}
    (h : canonical.Pairwise (· < ·)) :
    computeFingerprint canonical = ∑ d ∈ canonical.toFinset, d.contentHash := by
  rw [← computeFingerprint_sort, ← eq_sort_toFinset h]

end Ferratomic
