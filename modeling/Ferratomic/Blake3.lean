import Ferratomic.Datom

/-!
# BLAKE3

The hash function of the engine, after its published specification: 64-byte blocks are compressed
into 1024-byte chunks and the chunks into a binary tree whose left subtrees are complete. The
development is about any `Blake3`; this module gives the function that concrete runs use.
-/

namespace Ferratomic.Blake3

open Lib

/-- The initialisation vector. -/
def iv : List UInt32 :=
  [0x6A09E667, 0xBB67AE85, 0x3C6EF372, 0xA54FF53A, 0x510E527F, 0x9B05688C, 0x1F83D9AB, 0x5BE0CD19]

/-- The order in which a round permutes the message words. -/
def messagePermutation : List Nat :=
  [2, 6, 3, 10, 7, 0, 4, 13, 1, 11, 12, 5, 9, 14, 15, 8]

/-- Rotate a word to the right. -/
def rotr (x : UInt32) (n : UInt32) : UInt32 :=
  (x >>> n) ||| (x <<< (32 - n))

/-- The word at an index of a state or message. -/
def word (words : List UInt32) (i : Nat) : UInt32 :=
  words[i]?.getD 0

/-- The quarter-round: mix two message words into four words of the state. -/
def quarterRound (state : List UInt32) (ia ib ic id : Nat) (mx my : UInt32) : List UInt32 :=
  let a := word state ia + word state ib + mx
  let d := rotr (word state id ^^^ a) 16
  let c := word state ic + d
  let b := rotr (word state ib ^^^ c) 12
  let a := a + b + my
  let d := rotr (d ^^^ a) 8
  let c := c + d
  let b := rotr (b ^^^ c) 7
  (((state.set ia a).set ib b).set ic c).set id d

/-- One round: the columns and then the diagonals of the state. -/
def round (state message : List UInt32) : List UInt32 :=
  let m := word message
  let state := quarterRound state 0 4 8 12 (m 0) (m 1)
  let state := quarterRound state 1 5 9 13 (m 2) (m 3)
  let state := quarterRound state 2 6 10 14 (m 4) (m 5)
  let state := quarterRound state 3 7 11 15 (m 6) (m 7)
  let state := quarterRound state 0 5 10 15 (m 8) (m 9)
  let state := quarterRound state 1 6 11 12 (m 10) (m 11)
  let state := quarterRound state 2 7 8 13 (m 12) (m 13)
  quarterRound state 3 4 9 14 (m 14) (m 15)

/-- Rounds with the message permuted between them. -/
def rounds : Nat → List UInt32 → List UInt32 → List UInt32
  | 0, state, _ => state
  | n + 1, state, message =>
      rounds n (round state message) (messagePermutation.map (word message))

/-- The chaining value of one block. -/
def compress (cv message : List UInt32) (counter blockLen flags : Nat) : List UInt32 :=
  let state := cv ++ iv.take 4 ++
    [UInt32.ofNat counter, UInt32.ofNat (counter / 2 ^ 32), UInt32.ofNat blockLen,
      UInt32.ofNat flags]
  let mixed := rounds 7 state message
  List.zipWith (· ^^^ ·) (mixed.take 8) (mixed.drop 8)

/-- The sixteen little-endian words of a block, padded with zeros. -/
def blockWords (block : Bytes) : List UInt32 :=
  let padded := block ++ List.replicate (64 - block.length) 0
  (List.range 16).map fun i => UInt32.ofNat (leNat ((padded.drop (4 * i)).take 4))

/-- The chaining value of a chunk, block by block. -/
def chunkValue (counter rootFlag : Nat) : Nat → Bytes → Nat → List UInt32 → List UInt32
  | 0, _, _, cv => cv
  | fuel + 1, bytes, startFlag, cv =>
      if bytes.length ≤ 64 then
        compress cv (blockWords bytes) counter bytes.length (startFlag + 2 + rootFlag)
      else
        chunkValue counter rootFlag fuel (bytes.drop 64) 0
          (compress cv (blockWords (bytes.take 64)) counter 64 startFlag)

/-- The greatest power of two below a number of chunks. -/
def leftChunks (chunks : Nat) : Nat :=
  2 ^ Nat.log2 (chunks - 1)

/-- The chaining value of a subtree that starts at the chunk `counter`. -/
def treeValue : Nat → Nat → Nat → Bytes → List UInt32
  | 0, _, _, _ => iv
  | fuel + 1, counter, rootFlag, bytes =>
      if bytes.length ≤ 1024 then chunkValue counter rootFlag 16 bytes 1 iv
      else
        let left := leftChunks ((bytes.length + 1023) / 1024)
        compress iv
          (treeValue fuel counter 0 (bytes.take (1024 * left)) ++
            treeValue fuel (counter + left) 0 (bytes.drop (1024 * left)))
          0 64 (4 + rootFlag)

/-- The 256-bit digest. -/
def digest (bytes : Bytes) : Bytes :=
  (treeValue (bytes.length + 1) 0 8 bytes).flatMap fun w => leBytes 4 w.toNat

/-- The digest brought to its fixed length. -/
def reference (bytes : Bytes) : Hash :=
  ⟨(digest bytes ++ List.replicate 32 0).take 32, by simp⟩

instance : Blake3 where
  hash := reference

end Ferratomic.Blake3
