import Mathlib.Tactic.Common

/-!
# Checksums of word buffers

Model of the part of `checksum.rs` that journal records and btree nodes use: `xxh64` with its
rounds, and `bch2_checksum` for the type `BCH_CSUM_xxhash`. Both users hand it whole 64-bit
words in little-endian order, so a buffer is a list of words here; the tails of four bytes and
of single bytes in `xxh64` are never entered on such a buffer.

## Main definitions

* `xxh64`: the hash of a list of words.
* `bch2Checksum`: the checksum stored in front of a record.
-/

namespace Subvol

/-- `BCH_CSUM_xxhash`. -/
def bchCsumXxhash : ℕ := 7

/-- `bch_csum`. -/
structure BchCsum where
  lo : UInt64
  hi : UInt64
deriving DecidableEq, Repr, Inhabited

def prime64_1 : UInt64 := 11400714785074694791
def prime64_2 : UInt64 := 14029467366897019727
def prime64_3 : UInt64 := 1609587929392839161
def prime64_4 : UInt64 := 9650029242287828579
def prime64_5 : UInt64 := 2870177450012600261

/-- `u64::rotate_left` for the rotations used, `0 < r < 64`. -/
def rotateLeft (x : UInt64) (r : UInt64) : UInt64 := (x <<< r) ||| (x >>> (64 - r))

def xxh64Round (acc input : UInt64) : UInt64 :=
  rotateLeft (acc + input * prime64_2) 31 * prime64_1

def xxh64MergeRound (acc val : UInt64) : UInt64 :=
  (acc ^^^ xxh64Round 0 val) * prime64_1 + prime64_4

/-- The four accumulators of `xxh64`. -/
structure Xxh64Acc where
  v1 : UInt64
  v2 : UInt64
  v3 : UInt64
  v4 : UInt64

/-- The stripe loop: four words a turn while four words are left. -/
def xxh64Stripes : Xxh64Acc → List UInt64 → Xxh64Acc × List UInt64
  | v, w1 :: w2 :: w3 :: w4 :: rest =>
    xxh64Stripes
      ⟨xxh64Round v.v1 w1, xxh64Round v.v2 w2, xxh64Round v.v3 w3, xxh64Round v.v4 w4⟩ rest
  | v, rest => (v, rest)

def xxh64Converge (v : Xxh64Acc) : UInt64 :=
  let hash := rotateLeft v.v1 1 + rotateLeft v.v2 7 + rotateLeft v.v3 12 + rotateLeft v.v4 18
  let hash := xxh64MergeRound hash v.v1
  let hash := xxh64MergeRound hash v.v2
  let hash := xxh64MergeRound hash v.v3
  xxh64MergeRound hash v.v4

/-- The loop over the words behind the last whole stripe. -/
def xxh64Tail (hash : UInt64) : List UInt64 → UInt64
  | [] => hash
  | word :: rest =>
    xxh64Tail (rotateLeft (hash ^^^ xxh64Round 0 word) 27 * prime64_1 + prime64_4) rest

def xxh64Avalanche (hash : UInt64) : UInt64 :=
  let hash := (hash ^^^ (hash >>> 33)) * prime64_2
  let hash := (hash ^^^ (hash >>> 29)) * prime64_3
  hash ^^^ (hash >>> 32)

/-- `xxh64` of the words `input`, whose length in bytes is added before the tail. -/
def xxh64 (input : List UInt64) (seed : UInt64) : UInt64 :=
  let bytes := UInt64.ofNat (8 * input.length)
  if 4 ≤ input.length then
    let (v, rest) := xxh64Stripes
      ⟨seed + prime64_1 + prime64_2, seed + prime64_2, seed, seed - prime64_1⟩ input
    xxh64Avalanche (xxh64Tail (xxh64Converge v + bytes) rest)
  else
    xxh64Avalanche (xxh64Tail (seed + prime64_5 + bytes) input)

/-- `bch2_checksum(BCH_CSUM_xxhash, ..)`. -/
def bch2Checksum (data : List UInt64) : BchCsum := ⟨xxh64 data 0, 0⟩

-- The vector of the source's tests for the empty buffer.
example : xxh64 [] 0 = 0xef46db3751d8e999 := by decide

end Subvol
