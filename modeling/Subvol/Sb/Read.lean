import Subvol.Sb.Validate

/-!
# Reading the superblocks of a device

A device holds copies of its superblock. One buffer is used for all reads: it grows to the size that
a copy has in its header, before the checksum of the copy is computed, and every read fills all of
it. Model of the functions of `io.rs` that read the primary copy, the layout and the other copies,
and keep the newest one. Lengths of buffers are in bytes; a device is an image of 64-bit words.

The checksum is a parameter. `alloc` tells whether there is memory for the buffer.

## Main definitions

* `SbDevice`, `SbReader`.
* `checkSuper`, `readOneSuper`, `readLayoutSector`, `readBackupSupers`, `bch2ReadSuper`.
-/

namespace Subvol

open Lib

/-! ### Reads -/

/-- A device: its words, and how many of them there are. -/
structure SbDevice where
  words : Image (BitVec 64)
  len : ℕ

/-- The words from a sector on. -/
def SbDevice.copyAt (dev : SbDevice) (sector : ℕ) : Image (BitVec 64) :=
  fun i => dev.words (64 * sector + i)

/-- `bch_sb_handle` while a superblock is read. -/
structure SbReader where
  words : Image (BitVec 64)
  bufferSize : ℕ
  seq : ℕ

/-- `BCH_SB_SECTOR`. -/
def bchSbSector : ℕ := 8

/-- `BCH_SB_LAYOUT_SECTOR`. -/
def bchSbLayoutSector : ℕ := 7

/-- `read_at` until the bytes are there or the device ends: whether they are, and the buffer. -/
def SbDevice.readBytes (dev : SbDevice) (words : Image (BitVec 64)) (sector bytes : ℕ) :
    Bool × Image (BitVec 64) :=
  let pos := sector * 512 % 2 ^ 64 / 8
  let n := min (bytes / 8) (dev.len - pos)
  (n = bytes / 8, words.writeAt 0 (dev.words.readAt pos n))

/-- `bch2_sb_realloc`, of a handle without a buffer. -/
def newReader : SbReader where
  words := fun _ => 0
  bufferSize := nextPowerOfTwo (vstructBytes 0)
  seq := 0

/-- `bch2_sb_realloc`, to a size that the buffer does not have. -/
def SbReader.grow (sb : SbReader) (u64s : ℕ) : SbReader where
  words := fun i => if 8 * (i + 1) ≤ sb.bufferSize then sb.words i else 0
  bufferSize := nextPowerOfTwo (vstructBytes u64s)
  seq := sb.seq

section Read

variable (checksum : ℕ → List (BitVec 64) → BitVec 64 × BitVec 64) (dev : SbDevice)

/-- The checks of `read_one_super`; false where the superblock is larger than the buffer. -/
def checkSuper (words : Image (BitVec 64)) (bufferSize : ℕ) : Except SbErr Bool :=
  if Sb.magic words ≠ bchfsMagic then .error .magic
  else
    match bch2SbCompatible words with
    | .error e => .error e
    | .ok () =>
      let bytes := vstructBytes (Sb.u64s words)
      let sbSize := 512 * 2 ^ min bchSbLayoutSizeBitsMax (Sb.layout words).sbMaxSizeBits
      let csumType := Sb.csumType words
      if bytes > sbSize then .error .size
      else if bytes > bufferSize then .ok false
      else if csumType ≥ 8 ∨ csumType = 3 ∨ csumType = 4 then .error .csumType
      else if checksum csumType (words.readAt 2 (bytes / 8 - 2)) ≠ Sb.csum words then .error .csum
      else .ok true

variable {checksum} in
theorem checkSuper_false {words : Image (BitVec 64)} {bufferSize : ℕ}
    (h : checkSuper checksum words bufferSize = .ok false) :
    bufferSize < vstructBytes (Sb.u64s words) ∧ vstructBytes (Sb.u64s words) ≤ 2 ^ 25 := by
  unfold checkSuper at h
  split at h
  · cases h
  split at h
  · cases h
  dsimp only at h
  split_ifs at h with hsize hgrow
  · refine ⟨hgrow, (Nat.le_of_not_lt hsize).trans ?_⟩
    have hpow : 2 ^ min bchSbLayoutSizeBitsMax (Sb.layout words).sbMaxSizeBits ≤ 2 ^ 16 :=
      Nat.pow_le_pow_right Nat.two_pos (Nat.min_le_left _ _)
    omega
  · cases h

/-- `read_one_super`. -/
def readOneSuper (alloc : Bool) (sector : ℕ) (sb : SbReader) : Except SbErr Unit × SbReader :=
  let (full, words) := dev.readBytes sb.words sector sb.bufferSize
  let sb' := { sb with words }
  if ¬full then (.error .io, sb')
  else
    match _h : checkSuper checksum words sb.bufferSize with
    | .error e => (.error e, sb')
    | .ok false =>
      if alloc then readOneSuper alloc sector (sb'.grow (Sb.u64s words)) else (.error .enomem, sb')
    | .ok true => (.ok (), { sb' with seq := Sb.seq words })
termination_by 2 ^ 25 - sb.bufferSize
decreasing_by
  have hgrow := checkSuper_false _h
  have hle := le_nextPowerOfTwo (vstructBytes (Sb.u64s words))
  change 2 ^ 25 - nextPowerOfTwo (vstructBytes (Sb.u64s words)) < 2 ^ 25 - sb.bufferSize
  omega

/-- `read_layout_sector`. -/
def readLayoutSector (sb : SbReader) : Except SbErr SbLayout × SbReader :=
  let (full, words) := dev.readBytes sb.words bchSbLayoutSector 512
  let sb := { sb with words }
  let layout := sbLayoutAt words 0
  if ¬full then (.error .io, sb)
  else
    match validateSbLayout layout with
    | .error e => (.error e, sb)
    | .ok () => (.ok layout, sb)

/-- The variables of `read_backup_supers`. -/
structure BackupState where
  sb : SbReader
  bestSeq : ℕ
  bestOffset : ℕ
  lastRead : ℕ
  anyValid : Bool

/-- A turn of the loop of `read_backup_supers`. -/
def readBackup (alloc : Bool) (s : BackupState) (offset : ℕ) : BackupState :=
  match readOneSuper checksum dev alloc offset s.sb with
  | (.error _, sb) => { s with sb, lastRead := offset }
  | (.ok (), sb) =>
    if sb.seq ≥ s.bestSeq then ⟨sb, sb.seq, offset, offset, true⟩
    else { s with sb, lastRead := offset, anyValid := true }

/-- `read_backup_supers`: the best offset, and the buffer. -/
def readBackupSupers (alloc : Bool) (sb : SbReader) (layout : SbLayout) (primaryValid : Bool) :
    Except SbErr ℕ × SbReader :=
  let primaryOffset := layout.sbOffset.headD 0
  let s := (layout.offsets.drop 1).foldl (readBackup checksum dev alloc)
    { sb
      bestSeq := if primaryValid then Sb.seq sb.words else 0
      bestOffset := primaryOffset
      lastRead := if primaryValid then primaryOffset else 0
      anyValid := primaryValid }
  if ¬s.anyValid then (.error .noneValid, s.sb)
  else if s.lastRead ≠ s.bestOffset then
    match readOneSuper checksum dev alloc s.bestOffset s.sb with
    | (.error e, sb) => (.error e, sb)
    | (.ok (), sb) => (.ok s.bestOffset, sb)
  else (.ok s.bestOffset, s.sb)

/-- What `bch2_read_super` reads: the offset that is checked, and the buffer. -/
def readSupers (alloc : Bool) : Except SbErr ℕ × SbReader :=
  if ¬alloc then (.error .enomem, newReader)
  else
    match readOneSuper checksum dev alloc bchSbSector newReader with
    | (.ok (), sb) =>
      match validateSbLayout (Sb.layout sb.words) with
      | .error e => (.error e, sb)
      | .ok () => readBackupSupers checksum dev alloc sb (Sb.layout sb.words) true
    | (.error _, sb) =>
      match readLayoutSector dev sb with
      | (.error e, sb) => (.error e, sb)
      | (.ok layout, sb) => readBackupSupers checksum dev alloc sb layout false

/-- The end of `bch2_read_super`: the superblock in the buffer is checked at an offset. -/
def validateRead (sb : SbReader) (offset : ℕ) : Except SbErr SbReader :=
  match bch2SbValidate sb.words offset with
  | .error e => .error e
  | .ok words => .ok { sb with words }

/-- `bch2_read_super`, of a device that can be opened. -/
def bch2ReadSuper (alloc : Bool) : Except SbErr SbReader :=
  match readSupers checksum dev alloc with
  | (.error e, _) => .error e
  | (.ok offset, sb) => validateRead sb offset

end Read

end Subvol
