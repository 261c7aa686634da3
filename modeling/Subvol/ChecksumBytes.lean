import Subvol.Checksum
import Subvol.Lib.Crc
import Subvol.Lib.LittleEndian

/-!
# Checksums of byte buffers

Model of all of `checksum.rs` on bytes: the tables of the two cyclic codes, the hash with its tails
of four bytes and of single bytes, `bch2_checksum` for every type and `bch2_checksum_merge`. The
code takes a byte at once with a table; this is the code that takes one bit after the other. A
buffer of whole words has the hash of its words that the other modules use.

## Main definitions

* `crc32c`, `crc64Be`, `xxh64Bytes`, `bch2ChecksumBytes`.
* `bch2ChecksumMerge`: the checksum of two buffers, from those of each.

## Main results

* `crc32c_toBitVec`, `crc64Be_toBitVec`: the tables take eight bits at once.
* `checksum_merge_append`: a merged checksum is that of both buffers, one behind the other.
* `checksum_word_buffer`: the checksum of a buffer of words.
-/

namespace Subvol

open Lib

/-! ### Types -/

def bchCsumNone : ℕ := 0
def bchCsumCrc32cNonzero : ℕ := 1
def bchCsumCrc64Nonzero : ℕ := 2
def bchCsumCrc32c : ℕ := 5
def bchCsumCrc64 : ℕ := 6

/-- `bch2_checksum_mergeable`. -/
def bch2ChecksumMergeable (type : ℕ) : Bool :=
  type = bchCsumNone || type = bchCsumCrc32c || type = bchCsumCrc64

/-! ### Cyclic codes -/

/-- The loop over the bits of an entry of `CRC32C_TABLE`. -/
def crc32cBits : ℕ → UInt32 → UInt32
  | 0, crc => crc
  | bit + 1, crc =>
    crc32cBits bit (if crc &&& 1 ≠ 0 then (crc >>> 1) ^^^ 0x82f63b78 else crc >>> 1)

/-- `CRC32C_TABLE`. -/
def crc32cTable : Vector UInt32 256 := Vector.ofFn fun i => crc32cBits 8 (UInt32.ofNat i)

/-- The loop over the bits of an entry of `CRC64_TABLE`. -/
def crc64Bits : ℕ → UInt64 → UInt64
  | 0, crc => crc
  | bit + 1, crc =>
    crc64Bits bit
      (if crc &&& ((1 : UInt64) <<< 63) ≠ 0 then (crc <<< 1) ^^^ 0x42f0e1eba9ea3693 else crc <<< 1)

/-- `CRC64_TABLE`. -/
def crc64Table : Vector UInt64 256 := Vector.ofFn fun i => crc64Bits 8 (UInt64.ofNat i <<< 56)

def crc32cByte (crc : UInt32) (byte : UInt8) : UInt32 :=
  crc32cTable[Fin.ofNat 256 ((crc ^^^ byte.toUInt32) &&& 0xff).toNat] ^^^ (crc >>> 8)

/-- `crc32c`. -/
def crc32c (crc : UInt32) (data : List UInt8) : UInt32 := data.foldl crc32cByte crc

def crc64BeByte (crc : UInt64) (byte : UInt8) : UInt64 :=
  crc64Table[Fin.ofNat 256 (((crc >>> 56) ^^^ byte.toUInt64) &&& 0xff).toNat] ^^^ (crc <<< 8)

/-- `crc64_be`. -/
def crc64Be (crc : UInt64) (data : List UInt8) : UInt64 := data.foldl crc64BeByte crc

/-! ### The hash -/

/-- `u64::from_le_bytes`. -/
def u64FromLeBytes (bytes : List UInt8) : UInt64 := UInt64.ofNat (natOfBytes bytes)

/-- `u32::from_le_bytes`. -/
def u32FromLeBytes (bytes : List UInt8) : UInt32 := UInt32.ofNat (natOfBytes bytes)

/-- The stripe loop: 32 bytes a turn while so many are left. -/
def xxh64ByteStripes (v : Xxh64Acc) (rest : List UInt8) : Xxh64Acc × List UInt8 :=
  if 32 ≤ rest.length then
    xxh64ByteStripes
      ⟨xxh64Round v.v1 (u64FromLeBytes (rest.take 8)),
        xxh64Round v.v2 (u64FromLeBytes ((rest.drop 8).take 8)),
        xxh64Round v.v3 (u64FromLeBytes ((rest.drop 16).take 8)),
        xxh64Round v.v4 (u64FromLeBytes ((rest.drop 24).take 8))⟩
      (rest.drop 32)
  else (v, rest)
termination_by rest.length
decreasing_by rw [List.length_drop]; omega

/-- The loop over the words behind the last whole stripe, and what they leave. -/
def xxh64ByteWords (hash : UInt64) (rest : List UInt8) : UInt64 × List UInt8 :=
  if 8 ≤ rest.length then
    let word := u64FromLeBytes (rest.take 8)
    xxh64ByteWords (rotateLeft (hash ^^^ xxh64Round 0 word) 27 * prime64_1 + prime64_4)
      (rest.drop 8)
  else (hash, rest)
termination_by rest.length
decreasing_by rw [List.length_drop]; omega

/-- The four bytes behind the last word, if there are so many. -/
def xxh64Half (hash : UInt64) (rest : List UInt8) : UInt64 × List UInt8 :=
  if 4 ≤ rest.length then
    let word := u32FromLeBytes (rest.take 4)
    (rotateLeft (hash ^^^ (word.toUInt64 * prime64_1)) 23 * prime64_2 + prime64_3, rest.drop 4)
  else (hash, rest)

/-- A byte behind all that. -/
def xxh64Byte (hash : UInt64) (byte : UInt8) : UInt64 :=
  rotateLeft (hash ^^^ (byte.toUInt64 * prime64_5)) 11 * prime64_1

/-- `xxh64` of the bytes `input`. -/
def xxh64Bytes (input : List UInt8) (seed : UInt64) : UInt64 :=
  let (hash, rest) :=
    if 32 ≤ input.length then
      let (v, rest) := xxh64ByteStripes
        ⟨seed + prime64_1 + prime64_2, seed + prime64_2, seed, seed - prime64_1⟩ input
      (xxh64Converge v, rest)
    else (seed + prime64_5, input)
  let (hash, rest) := xxh64ByteWords (hash + UInt64.ofNat input.length) rest
  let (hash, rest) := xxh64Half hash rest
  xxh64Avalanche (rest.foldl xxh64Byte hash)

/-! ### Checksums -/

/-- `bch2_checksum`. -/
def bch2ChecksumBytes (type : ℕ) (data : List UInt8) : BchCsum where
  lo :=
    if type = bchCsumNone then 0
    else if type = bchCsumCrc32cNonzero then (crc32c 0xffffffff data).toUInt64 ^^^ 0xffffffff
    else if type = bchCsumCrc64Nonzero then
      crc64Be 0xffffffffffffffff data ^^^ 0xffffffffffffffff
    else if type = bchCsumCrc32c then (crc32c 0 data).toUInt64
    else if type = bchCsumCrc64 then crc64Be 0 data
    else if type = bchCsumXxhash then xxh64Bytes data 0
    else 0
  hi := 0

/-- A chunk of zeros goes through the seed of a merge. -/
def mergeZeroes (type : ℕ) (seed : UInt64) (len : ℕ) : UInt64 :=
  if type = bchCsumNone then 0
  else if type = bchCsumCrc32c then (crc32c seed.toUInt32 (List.replicate len 0)).toUInt64
  else crc64Be seed (List.replicate len 0)

/-- The loop of `bch2_checksum_merge`: at most 4096 zeros a turn. -/
def mergeLoop (type : ℕ) (seed : UInt64) (bLen : ℕ) : UInt64 :=
  if bLen = 0 then seed
  else mergeLoop type (mergeZeroes type seed (min bLen 4096)) (bLen - min bLen 4096)
termination_by bLen

/-- `bch2_checksum_merge`; none where its assertion fails. -/
def bch2ChecksumMerge (type : ℕ) (a b : BchCsum) (bLen : ℕ) : Option BchCsum :=
  if bch2ChecksumMergeable type then some ⟨mergeLoop type a.lo bLen ^^^ b.lo, a.hi ^^^ b.hi⟩
  else none

-- The vectors of the source's tests for "123456789".
example : crc32c 0 [49, 50, 51, 52, 53, 54, 55, 56, 57] = 0x58e3fa20 := by decide +kernel
example : crc64Be 0 [49, 50, 51, 52, 53, 54, 55, 56, 57] = 0x6c40df5f0b497347 := by decide +kernel
example : xxh64Bytes [49, 50, 51, 52, 53, 54, 55, 56, 57] 0 = 0x8cb841db40e6ae83 := by
  decide +kernel

/-! ### The tables take eight bits at once -/

/-- The polynomial of `crc32c`, the lowest bit being the highest power. -/
def crc32cPoly : BitVec 32 := 0x82f63b78#32

/-- The polynomial of `crc64_be`. -/
def crc64Poly : BitVec 64 := 0x42f0e1eba9ea3693#64

/-- The code of `crc32c`, bit after bit. -/
def crc32cCode : Crc 32 8 := Crc.lsbFirst crc32cPoly (by decide) (by decide)

/-- The code of `crc64_be`, bit after bit. -/
def crc64Code : Crc 64 8 := Crc.msbFirst crc64Poly (by decide) (by decide)

theorem and_ne_zero_iff {w i : ℕ} {x m : BitVec w} (hi : i < w) (hm : m = BitVec.twoPow w i) :
    x &&& m ≠ 0#w ↔ x.getLsbD i = true := by
  rw [hm, BitVec.and_twoPow]
  have hne : BitVec.twoPow w i ≠ 0#w := by
    intro h
    have h' := congrArg (·.getLsbD i) h
    simp [hi] at h'
  cases hx : x.getLsbD i with
  | true => simp [hne]
  | false => simp

theorem low_byte {w : ℕ} (x : BitVec w) (hw : 8 ≤ w) :
    x &&& 0xff#w = (x.setWidth 8).setWidth w := by
  have hpow : 2 ^ 8 ≤ 2 ^ w := Nat.pow_le_pow_right Nat.two_pos hw
  have hff : 255 % 2 ^ w = 2 ^ 8 - 1 := Nat.mod_eq_of_lt (by omega)
  have hlt : x.toNat % 2 ^ 8 < 2 ^ w := (Nat.mod_lt _ (by decide)).trans_le hpow
  refine BitVec.eq_of_toNat_eq ?_
  rw [BitVec.toNat_and, BitVec.toNat_ofNat, hff, Nat.and_two_pow_sub_one_eq_mod,
    BitVec.toNat_setWidth, BitVec.toNat_setWidth, Nat.mod_eq_of_lt hlt]

theorem byte_ushiftRight {w : ℕ} (b : BitVec 8) : b.setWidth w >>> 8 = 0#w := by
  refine BitVec.eq_of_getLsbD_eq fun i hi => ?_
  rw [BitVec.getLsbD_ushiftRight, BitVec.getLsbD_setWidth,
    BitVec.getLsbD_of_ge b (8 + i) (by omega), Bool.and_false, BitVec.getLsbD_zero]

theorem crc32cBits_toBitVec (n : ℕ) (crc : UInt32) :
    (crc32cBits n crc).toBitVec = (lsbShift crc32cPoly)^[n] crc.toBitVec := by
  induction n generalizing crc with
  | zero => rfl
  | succ n ih =>
    have hbit : crc &&& 1 ≠ 0 ↔ crc.toBitVec.getLsbD 0 = true := by
      rw [← and_ne_zero_iff (m := 1#32) (by decide) (by decide)]
      exact not_congr UInt32.toBitVec_inj.symm
    rw [crc32cBits, ih, Function.iterate_succ_apply]
    congr 1
    rw [lsbShift, leaving]
    by_cases h : crc.toBitVec.getLsbD 0 = true
    · rw [if_pos (hbit.mpr h), if_pos h]
      rfl
    · rw [if_neg (mt hbit.mp h), if_neg h, BitVec.xor_zero]
      rfl

theorem crc64Bits_toBitVec (n : ℕ) (crc : UInt64) :
    (crc64Bits n crc).toBitVec = (msbShift crc64Poly)^[n] crc.toBitVec := by
  induction n generalizing crc with
  | zero => rfl
  | succ n ih =>
    have hbit : crc &&& ((1 : UInt64) <<< 63) ≠ 0 ↔ crc.toBitVec.msb = true := by
      rw [BitVec.msb_eq_getLsbD_last,
        ← and_ne_zero_iff (m := 1#64 <<< 63) (by decide) (by decide)]
      exact not_congr UInt64.toBitVec_inj.symm
    rw [crc64Bits, ih, Function.iterate_succ_apply]
    congr 1
    rw [msbShift, leaving]
    by_cases h : crc.toBitVec.msb = true
    · rw [if_pos (hbit.mpr h), if_pos h]
      rfl
    · rw [if_neg (mt hbit.mp h), if_neg h, BitVec.xor_zero]
      rfl

theorem crc32cTable_toBitVec (x : UInt32) :
    crc32cTable[Fin.ofNat 256 (x &&& 0xff).toNat].toBitVec =
      (lsbShift crc32cPoly)^[8] ((x.toBitVec.setWidth 8).setWidth 32) := by
  have hentry (i : Fin 256) : crc32cTable[i] = crc32cBits 8 (UInt32.ofNat i) := by
    rw [crc32cTable, Fin.getElem_fin, Vector.getElem_ofFn]
  have hlt : (x &&& 0xff).toNat < 256 := by
    rw [UInt32.toNat_and]
    exact Nat.and_lt_two_pow x.toNat (by decide : 255 < 2 ^ 8)
  rw [hentry, crc32cBits_toBitVec, Fin.val_ofNat, Nat.mod_eq_of_lt hlt, UInt32.ofNat_toNat,
    ← low_byte _ (by decide)]
  rfl

theorem crc64Table_toBitVec (x : UInt64) :
    crc64Table[Fin.ofNat 256 (x &&& 0xff).toNat].toBitVec =
      (msbShift crc64Poly)^[8] ((x.toBitVec.setWidth 8).setWidth 64 <<< 56) := by
  have hentry (i : Fin 256) : crc64Table[i] = crc64Bits 8 (UInt64.ofNat i <<< 56) := by
    rw [crc64Table, Fin.getElem_fin, Vector.getElem_ofFn]
  have hlt : (x &&& 0xff).toNat < 256 := by
    rw [UInt64.toNat_and]
    exact Nat.and_lt_two_pow x.toNat (by decide : 255 < 2 ^ 8)
  rw [hentry, crc64Bits_toBitVec, Fin.val_ofNat, Nat.mod_eq_of_lt hlt, UInt64.ofNat_toNat,
    ← low_byte _ (by decide)]
  rfl

theorem crc32cByte_toBitVec (crc : UInt32) (byte : UInt8) :
    (crc32cByte crc byte).toBitVec = crc32cCode.step crc.toBitVec byte.toBitVec := by
  have henter : crc32cCode.enter 0 byte.toBitVec = byte.toBitVec.setWidth 32 :=
    BitVec.shiftLeft_zero _
  have hshift := lsbShift_byte crc32cPoly (crc.toBitVec ^^^ byte.toBitVec.setWidth 32)
  rw [BitVec.ushiftRight_xor_distrib, byte_ushiftRight, BitVec.xor_zero] at hshift
  rw [Crc.step, henter, crc32cByte, UInt32.toBitVec_xor, crc32cTable_toBitVec]
  exact hshift.symm

theorem crc64BeByte_toBitVec (crc : UInt64) (byte : UInt8) :
    (crc64BeByte crc byte).toBitVec = crc64Code.step crc.toBitVec byte.toBitVec := by
  have hshift := msbShift_byte crc64Poly (by decide)
    (crc.toBitVec ^^^ byte.toBitVec.setWidth 64 <<< 56)
  have hleft : byte.toBitVec.setWidth 64 <<< 56 <<< 8 = 0#64 := by
    rw [← BitVec.shiftLeft_add, BitVec.shiftLeft_eq_zero (by decide)]
  have hright : byte.toBitVec.setWidth 64 <<< 56 >>> 56 = byte.toBitVec.setWidth 64 := by
    refine BitVec.eq_of_getLsbD_eq fun i hi => ?_
    rw [BitVec.getLsbD_ushiftRight, BitVec.getLsbD_shiftLeft, BitVec.getLsbD_setWidth,
      BitVec.getLsbD_setWidth, Nat.add_sub_cancel_left]
    by_cases hbyte : i < 8
    · simp [hi, show 56 + i < 64 by omega]
    · simp [BitVec.getLsbD_of_ge byte.toBitVec i (Nat.not_lt.mp hbyte)]
  rw [BitVec.shiftLeft_xor_distrib, hleft, BitVec.xor_zero, BitVec.ushiftRight_xor_distrib,
    hright] at hshift
  rw [Crc.step, crc64BeByte, UInt64.toBitVec_xor, crc64Table_toBitVec]
  exact hshift.symm

/-- `crc32c` takes bit after bit, for every seed. -/
theorem crc32c_toBitVec (crc : UInt32) (data : List UInt8) :
    (crc32c crc data).toBitVec = crc32cCode.run crc.toBitVec (data.map UInt8.toBitVec) := by
  induction data generalizing crc with
  | nil => rfl
  | cons byte data ih =>
    rw [List.map_cons, Crc.run_cons, ← crc32cByte_toBitVec, ← ih]
    rfl

theorem crc64Be_toBitVec (crc : UInt64) (data : List UInt8) :
    (crc64Be crc data).toBitVec = crc64Code.run crc.toBitVec (data.map UInt8.toBitVec) := by
  induction data generalizing crc with
  | nil => rfl
  | cons byte data ih =>
    rw [List.map_cons, Crc.run_cons, ← crc64BeByte_toBitVec, ← ih]
    rfl

theorem zeroes_toBitVec (n : ℕ) :
    (List.replicate n (0 : UInt8)).map UInt8.toBitVec = List.replicate n 0#8 :=
  List.map_replicate

theorem crc32c_append (a b : List UInt8) :
    crc32c 0 (a ++ b) = crc32c (crc32c 0 a) (List.replicate b.length 0) ^^^ crc32c 0 b := by
  refine UInt32.toBitVec_inj.mp ?_
  rw [UInt32.toBitVec_xor, crc32c_toBitVec, crc32c_toBitVec, crc32c_toBitVec, crc32c_toBitVec,
    zeroes_toBitVec, List.map_append, Crc.run_append, List.length_map]
  rfl

theorem crc64Be_append (a b : List UInt8) :
    crc64Be 0 (a ++ b) = crc64Be (crc64Be 0 a) (List.replicate b.length 0) ^^^ crc64Be 0 b := by
  refine UInt64.toBitVec_inj.mp ?_
  rw [UInt64.toBitVec_xor, crc64Be_toBitVec, crc64Be_toBitVec, crc64Be_toBitVec, crc64Be_toBitVec,
    zeroes_toBitVec, List.map_append, Crc.run_append, List.length_map]
  rfl

/-! ### Merged checksums -/

theorem mergeLoop_zero (type : ℕ) (seed : UInt64) : mergeLoop type seed 0 = seed := by
  rw [mergeLoop, if_pos rfl]

/-- Chunks of zeros that go through one after the other go through at once. -/
theorem mergeLoop_eq {α : Type} {type : ℕ} {g : α → UInt64} {f : α → ℕ → α}
    (hzero : ∀ s, f s 0 = s) (hadd : ∀ s m n, f (f s m) n = f s (m + n))
    (hchunk : ∀ s n, mergeZeroes type (g s) n = g (f s n)) (s : α) (bLen : ℕ) :
    mergeLoop type (g s) bLen = g (f s bLen) := by
  induction bLen using Nat.strong_induction_on generalizing s with
  | _ n ih =>
    by_cases hn : n = 0
    · rw [hn, mergeLoop_zero, hzero]
    · rw [mergeLoop, if_neg hn, hchunk, ih _ (by omega), hadd,
        Nat.add_sub_cancel' (Nat.min_le_left n 4096)]

theorem crc32c_zeroes (s : UInt32) (m n : ℕ) :
    crc32c (crc32c s (List.replicate m 0)) (List.replicate n 0) =
      crc32c s (List.replicate (m + n) 0) := by
  rw [crc32c, crc32c, crc32c, ← List.replicate_append_replicate, List.foldl_append]

theorem crc64Be_zeroes (s : UInt64) (m n : ℕ) :
    crc64Be (crc64Be s (List.replicate m 0)) (List.replicate n 0) =
      crc64Be s (List.replicate (m + n) 0) := by
  rw [crc64Be, crc64Be, crc64Be, ← List.replicate_append_replicate, List.foldl_append]

theorem mergeLoop_crc32c (s : UInt32) (bLen : ℕ) :
    mergeLoop bchCsumCrc32c s.toUInt64 bLen = (crc32c s (List.replicate bLen 0)).toUInt64 := by
  have hchunk (s : UInt32) (n : ℕ) : mergeZeroes bchCsumCrc32c s.toUInt64 n =
      (crc32c s (List.replicate n 0)).toUInt64 := by
    rw [mergeZeroes, if_neg (by decide), if_pos rfl, UInt32.toUInt32_toUInt64]
  exact mergeLoop_eq (g := UInt32.toUInt64) (f := fun s n => crc32c s (List.replicate n 0))
    (fun _ => rfl) crc32c_zeroes hchunk s bLen

theorem mergeLoop_crc64 (s : UInt64) (bLen : ℕ) :
    mergeLoop bchCsumCrc64 s bLen = crc64Be s (List.replicate bLen 0) := by
  have hchunk (s : UInt64) (n : ℕ) : mergeZeroes bchCsumCrc64 s n =
      crc64Be s (List.replicate n 0) := by
    rw [mergeZeroes, if_neg (by decide), if_neg (by decide)]
  exact mergeLoop_eq (g := id) (f := fun s n => crc64Be s (List.replicate n 0))
    (fun _ => rfl) crc64Be_zeroes hchunk s bLen

theorem mergeLoop_none (bLen : ℕ) : mergeLoop bchCsumNone 0 bLen = 0 := by
  have hchunk (s : Unit) (n : ℕ) : mergeZeroes bchCsumNone 0 n = 0 := by
    rw [mergeZeroes, if_pos rfl]
  exact mergeLoop_eq (g := fun _ => 0) (f := fun s _ => s) (fun _ => rfl) (fun _ _ _ => rfl)
    hchunk () bLen

theorem checksumBytes_none (data : List UInt8) : bch2ChecksumBytes bchCsumNone data = ⟨0, 0⟩ := rfl

theorem checksumBytes_crc32c (data : List UInt8) :
    bch2ChecksumBytes bchCsumCrc32c data = ⟨(crc32c 0 data).toUInt64, 0⟩ := rfl

theorem checksumBytes_crc64 (data : List UInt8) :
    bch2ChecksumBytes bchCsumCrc64 data = ⟨crc64Be 0 data, 0⟩ := rfl

/-- The checksum merged from those of two buffers is that of both, one behind the other, for every
length of the second one; the types that do not start from zero are refused. -/
theorem checksum_merge_append (type : ℕ) (a b : List UInt8) :
    bch2ChecksumMerge type (bch2ChecksumBytes type a) (bch2ChecksumBytes type b) b.length =
      if type = bchCsumNone ∨ type = bchCsumCrc32c ∨ type = bchCsumCrc64 then
        some (bch2ChecksumBytes type (a ++ b))
      else none := by
  by_cases h : type = bchCsumNone ∨ type = bchCsumCrc32c ∨ type = bchCsumCrc64
  · have hmergeable : bch2ChecksumMergeable type = true := by
      simpa [bch2ChecksumMergeable, or_assoc] using h
    rw [if_pos h, bch2ChecksumMerge, if_pos hmergeable]
    rcases h with rfl | rfl | rfl
    · rw [checksumBytes_none, checksumBytes_none, checksumBytes_none, mergeLoop_none]
      rfl
    · rw [checksumBytes_crc32c, checksumBytes_crc32c, checksumBytes_crc32c]
      dsimp only
      rw [mergeLoop_crc32c, ← UInt32.toUInt64_xor, ← crc32c_append, UInt64.xor_self]
    · rw [checksumBytes_crc64, checksumBytes_crc64, checksumBytes_crc64]
      dsimp only
      rw [mergeLoop_crc64, ← crc64Be_append, UInt64.xor_self]
  · have hmergeable : ¬bch2ChecksumMergeable type = true := by
      simpa [bch2ChecksumMergeable, or_assoc] using h
    rw [if_neg h, bch2ChecksumMerge, if_neg hmergeable]

/-! ### Changed buffers -/

theorem crc32c_ne_of_change (crc : UInt32) (front back : List UInt8) {l m : List UInt8}
    (hlen : l.length = m.length) (hfits : l.length ≤ 4) (hne : l ≠ m) :
    crc32c crc (front ++ l ++ back) ≠ crc32c crc (front ++ m ++ back) := by
  intro h
  have hrun := congrArg UInt32.toBitVec h
  simp only [crc32c_toBitVec, List.map_append] at hrun
  refine crc32cCode.run_ne_of_change _ _ _ ?_ ?_ ?_ hrun
  · rw [List.length_map, List.length_map, hlen]
  · rw [List.length_map]
    exact hfits
  · exact fun hmap => hne ((List.map_inj_right fun _ _ => UInt8.toBitVec_inj.mp).mp hmap)

theorem crc64Be_ne_of_change (crc : UInt64) (front back : List UInt8) {l m : List UInt8}
    (hlen : l.length = m.length) (hfits : l.length ≤ 8) (hne : l ≠ m) :
    crc64Be crc (front ++ l ++ back) ≠ crc64Be crc (front ++ m ++ back) := by
  intro h
  have hrun := congrArg UInt64.toBitVec h
  simp only [crc64Be_toBitVec, List.map_append] at hrun
  refine crc64Code.run_ne_of_change _ _ _ ?_ ?_ ?_ hrun
  · rw [List.length_map, List.length_map, hlen]
  · rw [List.length_map]
    exact hfits
  · exact fun hmap => hne ((List.map_inj_right fun _ _ => UInt8.toBitVec_inj.mp).mp hmap)

theorem u64_xor_cancel {a b c : UInt64} (h : a ^^^ c = b ^^^ c) : a = b :=
  UInt64.toBitVec_inj.mp ((BitVec.xor_left_inj c.toBitVec).mp (congrArg UInt64.toBitVec h))

/-- The number of neighbouring bytes that cannot change without a change of the checksum. -/
def burstBytes (type : ℕ) : ℕ :=
  if type = bchCsumCrc32cNonzero ∨ type = bchCsumCrc32c then 4
  else if type = bchCsumCrc64Nonzero ∨ type = bchCsumCrc64 then 8
  else 0

theorem checksumBytes_ne_of_change (type : ℕ) (front back : List UInt8) {l m : List UInt8}
    (hlen : l.length = m.length) (hfits : l.length ≤ burstBytes type) (hne : l ≠ m) :
    bch2ChecksumBytes type (front ++ l ++ back) ≠ bch2ChecksumBytes type (front ++ m ++ back) := by
  intro h
  have hlo := congrArg BchCsum.lo h
  rw [burstBytes] at hfits
  split_ifs at hfits with h32 h64
  · rcases h32 with rfl | rfl
    · exact crc32c_ne_of_change _ front back hlen hfits hne
        (UInt32.toUInt64_inj.mp (u64_xor_cancel hlo))
    · exact crc32c_ne_of_change _ front back hlen hfits hne (UInt32.toUInt64_inj.mp hlo)
  · rcases h64 with rfl | rfl
    · exact crc64Be_ne_of_change _ front back hlen hfits hne (u64_xor_cancel hlo)
    · exact crc64Be_ne_of_change _ front back hlen hfits hne hlo
  · have hl := List.length_eq_zero_iff.mp (Nat.le_zero.mp hfits)
    have hm := List.length_eq_zero_iff.mp (hlen.symm.trans (Nat.le_zero.mp hfits))
    exact hne (hl.trans hm.symm)

/-! ### Buffers of words -/

/-- The bytes of a buffer of little-endian words. -/
def wordsBytes (words : List UInt64) : List UInt8 := bytesOfNats 8 (words.map UInt64.toNat)

@[simp] theorem length_wordsBytes (words : List UInt64) :
    (wordsBytes words).length = 8 * words.length := by
  rw [wordsBytes, length_bytesOfNats, List.length_map]

theorem take_wordsBytes (w : UInt64) (words : List UInt64) :
    u64FromLeBytes ((wordsBytes (w :: words)).take 8) = w := by
  rw [wordsBytes, List.map_cons, u64FromLeBytes, natOfBytes_take,
    show 256 ^ 8 = 2 ^ 64 by decide, Nat.mod_eq_of_lt w.toNat_lt, UInt64.ofNat_toNat]

theorem drop_wordsBytes (n : ℕ) (words : List UInt64) :
    (wordsBytes words).drop (8 * n) = wordsBytes (words.drop n) := by
  rw [wordsBytes, drop_bytesOfNats, ← List.map_drop, wordsBytes]

theorem xxh64ByteStripes_words (v : Xxh64Acc) (words : List UInt64) :
    xxh64ByteStripes v (wordsBytes words) =
      ((xxh64Stripes v words).1, wordsBytes (xxh64Stripes v words).2) := by
  induction v, words using xxh64Stripes.induct with
  | case1 v w1 w2 w3 w4 rest ih =>
    have h1 := take_wordsBytes w1 (w2 :: w3 :: w4 :: rest)
    have h2 := drop_wordsBytes 1 (w1 :: w2 :: w3 :: w4 :: rest)
    have h3 := drop_wordsBytes 2 (w1 :: w2 :: w3 :: w4 :: rest)
    have h4 := drop_wordsBytes 3 (w1 :: w2 :: w3 :: w4 :: rest)
    have hrest := drop_wordsBytes 4 (w1 :: w2 :: w3 :: w4 :: rest)
    simp only [List.drop_succ_cons, List.drop_zero, Nat.reduceMul] at h2 h3 h4 hrest
    have hlong : 32 ≤ (wordsBytes (w1 :: w2 :: w3 :: w4 :: rest)).length := by
      simp only [length_wordsBytes, List.length_cons]
      omega
    rw [xxh64ByteStripes, if_pos hlong, h1, h2, h3, h4, hrest, take_wordsBytes, take_wordsBytes,
      take_wordsBytes, ih, xxh64Stripes]
  | case2 v words hshort =>
    have hlen : ¬4 ≤ words.length := by
      intro h
      match words, h with
      | w1 :: w2 :: w3 :: w4 :: rest, _ => exact hshort w1 w2 w3 w4 rest rfl
    rw [xxh64ByteStripes, if_neg (by rw [length_wordsBytes]; omega),
      xxh64Stripes.eq_2 v words hshort]

theorem xxh64ByteWords_words (hash : UInt64) (words : List UInt64) :
    xxh64ByteWords hash (wordsBytes words) = (xxh64Tail hash words, []) := by
  induction words generalizing hash with
  | nil =>
    have hnil : wordsBytes [] = [] := rfl
    have htail : xxh64Tail hash [] = hash := rfl
    rw [hnil, htail, xxh64ByteWords, if_neg (by decide)]
  | cons w words ih =>
    have hrest := drop_wordsBytes 1 (w :: words)
    rw [Nat.mul_one, List.drop_succ_cons, List.drop_zero] at hrest
    have hlong : 8 ≤ (wordsBytes (w :: words)).length := by
      rw [length_wordsBytes, List.length_cons]
      omega
    rw [xxh64ByteWords, if_pos hlong, hrest, take_wordsBytes, ih,
      xxh64Tail.eq_def hash (w :: words)]

/-- The hash of a buffer of words is that of the words. -/
theorem xxh64Bytes_words (words : List UInt64) (seed : UInt64) :
    xxh64Bytes (wordsBytes words) seed = xxh64 words seed := by
  rw [xxh64Bytes, xxh64, length_wordsBytes]
  by_cases h : 4 ≤ words.length
  · have hbytes : 32 ≤ 8 * words.length := by omega
    simp only [if_pos h, if_pos hbytes, xxh64ByteStripes_words, xxh64ByteWords_words]
    rfl
  · have hbytes : ¬32 ≤ 8 * words.length := by omega
    simp only [if_neg h, if_neg hbytes, xxh64ByteWords_words]
    rfl

/-- The checksum that the other modules use. -/
theorem checksum_word_buffer (words : List UInt64) :
    bch2ChecksumBytes bchCsumXxhash (wordsBytes words) = bch2Checksum words := by
  rw [bch2Checksum, ← xxh64Bytes_words]
  rfl

end Subvol
